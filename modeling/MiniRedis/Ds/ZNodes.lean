import MiniRedis.Ds.ZSetRuns
import MiniRedis.Ds.ZSetWalk

namespace MiniRedis.Ds

open MiniRedis.Data MiniRedis.Store

/-! The nodes that are allocated for a sorted set.  A node that is freed keeps
nothing of what was in it. -/

/-- What the allocator leaves in a freed node. -/
abbrev Garbage := Ptr → AVLNode × ZNode

structure ZHeap where
  zset : ZSet := {}
  nodes : List Ptr := []

/-- `free(node)`, which fails if the node is not allocated. -/
def ZHeap.free (garbage : Garbage) (heap : ZHeap) (node : Ptr) : Option ZHeap :=
  if node ∈ heap.nodes then
    let zset := heap.zset.setNode node (garbage node).2
    some {
      zset := { zset with tree := zset.tree.write node (garbage node).1 }
      nodes := heap.nodes.erase node }
  else
    none

def zsetInsertNodes (heap : ZHeap) (name : Bytes) (score : Double) :
    Option (ZHeap × Bool) := do
  let (zset, found) ← zsetLookup heap.zset name
  match found with
  | some node => do
      let zset ← zsetUpdate zset node score
      some ({ heap with zset := zset }, false)
  | none => do
      let (_, node) := znodeNew zset name score
      let zset ← zsetCreate zset name score
      some ({ zset := zset, nodes := node :: heap.nodes }, true)

def zsetLookupNodes (heap : ZHeap) (name : Bytes) :
    Option (ZHeap × Option Ptr) := do
  let (zset, found) ← zsetLookup heap.zset name
  some ({ heap with zset := zset }, found)

def zsetDeleteNodes (garbage : Garbage) (heap : ZHeap) (node : Ptr) : Option ZHeap := do
  let zset := heap.zset
  let (hmap, found) ← hmDelete zset.hcode zset.hmap
    (zset.probe (zset.hcode node) (zset.node node).name)
  if found.isNone then
    none
  else do
    let (tree, root) ← avlDel zset.alloc zset.tree node
    let zset := { zset with tree := tree, hmap := hmap, root := root }
    ZHeap.free garbage { heap with zset := zset } node

def treeDisposeNodes (garbage : Garbage) : Nat → ZHeap → Option Ptr → Option ZHeap
  | _, heap, none => some heap
  | 0, _, some _ => none
  | fuel + 1, heap, some node => do
      let heap ← treeDisposeNodes garbage fuel heap (heap.zset.tree node).left
      let heap ← treeDisposeNodes garbage fuel heap (heap.zset.tree node).right
      heap.free garbage node

def zsetClearNodes (garbage : Garbage) (heap : ZHeap) : Option ZHeap := do
  let zset := { heap.zset with hmap := hmClear heap.zset.hmap }
  let heap ← treeDisposeNodes garbage zset.alloc { heap with zset := zset } zset.root
  some { heap with zset := { heap.zset with root := none } }

/-! What is in other nodes does not matter. -/

variable {zset zset' : ZSet} {tree : BinaryTree Ptr} {scores : Bytes → Option Int}
  {heap heap' : ZHeap} {garbage : Garbage} {node : Ptr}

structure ZSet.SameNodes (zset zset' : ZSet) : Prop where
  root : zset'.root = zset.root
  hmap : zset'.hmap = zset.hmap
  alloc : zset'.alloc = zset.alloc
  tree : ∀ p ∈ zset.hmap.nodes, zset'.tree p = zset.tree p
  node : ∀ p ∈ zset.hmap.nodes, zset'.node p = zset.node p

theorem ZSet.Inv.sameNodes (h : zset.Inv tree) (hsame : zset.SameNodes zset') :
    zset'.Inv tree := by
  have hnode : ∀ p ∈ inorder tree, zset'.node p = zset.node p := fun p hp =>
    hsame.node p (h.same.mem_iff.mpr hp)
  refine ⟨h.layout.congr fun p hp => hsame.tree p (h.same.mem_iff.mpr hp),
    hsame.root.trans h.root, h.balanced, ?_, ?_, ?_, ?_, ?_⟩
  · refine h.sorted.imp_of_mem ?_
    intro first second hfirst hsecond hlt
    rw [ZSet.rank, hnode first hfirst, ZSet.rank, hnode second hsecond]
    exact hlt
  · rw [hsame.hmap]
    refine h.index.congr ?_ ?_
    · intro p hp
      rw [ZSet.hcode, hsame.node p hp, ZSet.hcode]
    · intro p hp
      rw [hsame.node p hp]
  · rw [hsame.hmap]
    exact h.same
  · intro p hp
    rw [hnode p hp]
    exact h.numbers p hp
  · intro p hp
    rw [hsame.alloc]
    exact h.bound p hp

theorem ZSet.Maps.sameNodes (h : zset.Maps scores) (hsame : zset.SameNodes zset') :
    zset'.Maps scores := by
  obtain ⟨tree, htree⟩ := h.inv
  refine ⟨⟨tree, htree.sameNodes hsame⟩, ?_⟩
  intro name score
  rw [h.pairs, hsame.hmap]
  constructor
  · rintro ⟨p, hp, hpair⟩
    rw [← hsame.node p hp] at hpair
    exact ⟨p, hp, hpair⟩
  · rintro ⟨p, hp, hpair⟩
    rw [hsame.node p hp] at hpair
    exact ⟨p, hp, hpair⟩

/-! Each operation keeps the allocated nodes and the linked ones the same. -/

structure ZHeap.Holds (heap : ZHeap) (scores : Bytes → Option Int) : Prop where
  maps : heap.zset.Maps scores
  nodes : heap.nodes.Perm heap.zset.hmap.nodes

theorem ZHeap.Holds.nodup (h : heap.Holds scores) : heap.nodes.Nodup := by
  obtain ⟨tree, htree⟩ := h.maps.inv
  exact h.nodes.nodup_iff.mpr htree.index.inv.nodup

theorem treeInsert_hmap (h : treeInsert zset node = some zset') :
    zset'.hmap = zset.hmap := by
  obtain ⟨_, _, h⟩ := Option.bind_eq_some_iff.mp h
  obtain ⟨_, _, h⟩ := Option.bind_eq_some_iff.mp h
  cases h
  rfl

theorem zsetUpdate_hmap {score : Double}
    (h : zsetUpdate zset node score = some zset') : zset'.hmap = zset.hmap := by
  unfold zsetUpdate at h
  split at h
  next =>
    cases h
    rfl
  next =>
    obtain ⟨⟨tree, root⟩, _, h⟩ := Option.bind_eq_some_iff.mp h
    have hkept : zset'.hmap = (zset.rescore tree root node score).hmap :=
      treeInsert_hmap h
    exact hkept

theorem zsetCreate_nodes (h : zset.Inv tree) {name : Bytes} {score : Double}
    (hmiss : ∀ p ∈ zset.hmap.nodes, (zset.node p).name ≠ name)
    (hscore : score.isNaN = false)
    (hresult : zsetCreate zset name score = some zset') :
    zset'.hmap.nodes.Perm (zset.alloc :: zset.hmap.nodes) := by
  obtain ⟨hmap, hinsert, hpending⟩ := h.create hmiss hscore
  obtain ⟨_, hinsert', hresult⟩ := Option.bind_eq_some_iff.mp hresult
  have hsame : some hmap = _ := hinsert.symm.trans hinsert'
  cases hsame
  rw [treeInsert_hmap hresult]
  exact hpending.same.trans (h.same.symm.cons _)

theorem ZHeap.Holds.lookup (h : heap.Holds scores) (name : Bytes) :
    ∃ heap' found, zsetLookupNodes heap name = some (heap', found) ∧
      heap'.Holds scores ∧ heap'.nodes = heap.nodes ∧
      heap'.zset.node = heap.zset.node ∧
      ∀ p, found = some p ↔ p ∈ heap.nodes ∧ (heap.zset.node p).name = name := by
  obtain ⟨hmap, found, hlookup, hmaps, hperm, hfound⟩ := zsetLookup_spec h.maps name
  refine ⟨{ heap with zset := { heap.zset with hmap := hmap } }, found, ?_,
    ⟨hmaps, h.nodes.trans hperm.symm⟩, rfl, rfl, ?_⟩
  · simp only [zsetLookupNodes, hlookup, Option.bind_eq_bind, Option.bind_some]
  · intro p
    rw [hfound, h.nodes.mem_iff]

theorem ZHeap.Holds.insert (h : heap.Holds scores) (name : Bytes) {score : Double}
    (hscore : score.isNaN = false) :
    ∃ heap' added, zsetInsertNodes heap name score = some (heap', added) ∧
      heap'.Holds (Function.update scores name (some score.key)) ∧
      (added = true ↔ scores name = none) := by
  obtain ⟨hmap, found, hlookup, hmaps, hperm, hfound⟩ := zsetLookup_spec h.maps name
  cases found with
  | some node =>
      obtain ⟨hnode, rfl⟩ := (hfound node).mp rfl
      obtain ⟨zset', hupdate, hmaps'⟩ :=
        zsetUpdate_spec hmaps (hperm.mem_iff.mpr hnode) hscore
      refine ⟨{ heap with zset := zset' }, false, ?_, ⟨hmaps', ?_⟩, ?_⟩
      · simp only [zsetInsertNodes, hlookup, hupdate, Option.bind_eq_bind,
          Option.bind_some]
      · rw [zsetUpdate_hmap hupdate]
        exact h.nodes.trans hperm.symm
      · simp only [Bool.false_eq_true, false_iff]
        exact fun hnone => h.maps.none_iff.mp hnone node hnode rfl
  | none =>
      have hmiss : ∀ p ∈ heap.zset.hmap.nodes, (heap.zset.node p).name ≠ name := by
        intro p hp hname
        cases (hfound p).mpr ⟨hp, hname⟩
      have hnone := h.maps.none_iff.mpr hmiss
      obtain ⟨zset', hcreate, hmaps'⟩ := zsetCreate_spec hmaps hnone hscore
      obtain ⟨tree, htree⟩ := hmaps.inv
      have hnodes := zsetCreate_nodes htree
        (fun p hp => hmiss p (hperm.mem_iff.mp hp)) hscore hcreate
      refine ⟨{ zset := zset', nodes := heap.zset.alloc :: heap.nodes }, true, ?_,
        ⟨hmaps', ?_⟩, ?_⟩
      · simp only [zsetInsertNodes, hlookup, hcreate, znodeNew, Option.bind_eq_bind,
          Option.bind_some]
      · exact ((h.nodes.trans hperm.symm).cons _).trans hnodes.symm
      · simp only [true_iff]
        exact hnone

theorem ZHeap.free_eq_some (h : heap.free garbage node = some heap') :
    node ∈ heap.nodes ∧ heap'.nodes = heap.nodes.erase node ∧
      (∀ p, p ≠ node → heap'.zset.tree p = heap.zset.tree p ∧
        heap'.zset.node p = heap.zset.node p) ∧
      heap'.zset.root = heap.zset.root ∧ heap'.zset.hmap = heap.zset.hmap ∧
      heap'.zset.alloc = heap.zset.alloc := by
  unfold ZHeap.free at h
  split at h
  next hin =>
    cases h
    refine ⟨hin, rfl, ?_, rfl, rfl, rfl⟩
    intro p hne
    exact ⟨AVLMem.write_other _ _ hne, ZSet.setNode_other _ _ hne⟩
  next => cases h

theorem ZHeap.exists_free (garbage : Garbage) (heap : ZHeap) (h : node ∈ heap.nodes) :
    ∃ heap', heap.free garbage node = some heap' := ⟨_, if_pos h⟩

theorem ZHeap.Holds.delete (h : heap.Holds scores) (garbage : Garbage)
    (hnode : node ∈ heap.nodes) :
    ∃ heap', zsetDeleteNodes garbage heap node = some heap' ∧
      heap'.Holds (Function.update scores (heap.zset.node node).name none) := by
  have hlinked := h.nodes.mem_iff.mp hnode
  obtain ⟨tree, htree⟩ := h.maps.inv
  have hprobe : (heap.zset.probe (heap.zset.hcode node)
      (heap.zset.node node).name).Seeks heap.zset.hmap.nodes
      (fun p => (heap.zset.node p).name) strHash (heap.zset.node node).name := by
    rw [htree.index.hashed node hlinked]
    exact heap.zset.probe_seeks _ _
  obtain ⟨hmap, hremove, _, hnodes⟩ := htree.index.delete hlinked hprobe
  have hout : node ∉ hmap.nodes :=
    (List.nodup_cons.mp (hnodes.nodup_iff.mp htree.index.inv.nodup)).1
  obtain ⟨zset', hdelete, hmaps⟩ := zsetDelete_spec h.maps hlinked
  simp only [zsetDelete, hremove, Option.bind_eq_bind, Option.bind_some,
    Option.isNone_some, Bool.false_eq_true, if_false] at hdelete
  obtain ⟨⟨mem, root⟩, hdel, hdelete⟩ := Option.bind_eq_some_iff.mp hdelete
  cases hdelete
  obtain ⟨heap', hfree⟩ := ZHeap.exists_free garbage { heap with
    zset := { heap.zset with tree := mem, hmap := hmap, root := root } } hnode
  obtain ⟨_, hrest, hother, hroot, hhmap, halloc⟩ := ZHeap.free_eq_some hfree
  refine ⟨heap', ?_, hmaps.sameNodes ⟨hroot, hhmap, halloc, ?_, ?_⟩, ?_⟩
  · simp only [zsetDeleteNodes, hremove, hdel, Option.bind_eq_bind, Option.bind_some,
      Option.isNone_some, Bool.false_eq_true, if_false, hfree]
  · intro p hp
    have hne : p ≠ node := fun heq => hout (heq ▸ hp)
    exact (hother p hne).1.trans (AVLMem.write_other mem _ hne).symm
  · intro p hp
    have hne : p ≠ node := fun heq => hout (heq ▸ hp)
    exact (hother p hne).2.trans (ZSet.setNode_other _ _ hne).symm
  · rw [hrest, hhmap]
    have hperm := (h.nodes.trans hnodes).erase node
    rw [List.erase_cons_head] at hperm
    exact hperm

/-! The teardown. -/

theorem treeDisposeNodes_spec (garbage : Garbage) (heap : ZHeap) {parent : Option Ptr}
    {fuel : Nat}
    (h : Layout heap.zset.tree parent tree) (hnodup : (inorder tree).Nodup)
    (hnodes : ∀ p ∈ inorder tree, p ∈ heap.nodes) (hfuel : tree.numNodes ≤ fuel) :
    ∃ heap', treeDisposeNodes garbage fuel heap (rootLabel tree) = some heap' ∧
      heap.nodes.Perm (inorder tree ++ heap'.nodes) ∧
      ∀ p, p ∉ inorder tree → heap'.zset.tree p = heap.zset.tree p := by
  induction tree generalizing parent fuel heap with
  | nil => exact ⟨heap, by cases fuel <;> rfl, .refl _, fun _ _ => rfl⟩
  | node node left right ihLeft ihRight =>
      obtain ⟨hcell, hleft, hright⟩ := h
      rw [inorder, List.nodup_append] at hnodup
      obtain ⟨hnodupLeft, hnodupRight, hcross⟩ := hnodup
      obtain ⟨hroot, hnodupRight⟩ := List.nodup_cons.mp hnodupRight
      have hrootLeft : node ∉ inorder left := fun hmem =>
        hcross node hmem node List.mem_cons_self rfl
      rw [BinaryTree.numNodes] at hfuel
      obtain ⟨fuel, rfl⟩ : ∃ rest, fuel = rest + 1 := ⟨fuel - 1, by omega⟩
      simp only [inorder, List.mem_append, List.mem_cons] at hnodes
      obtain ⟨first, hfirst, hpermFirst, houtFirst⟩ := ihLeft heap hleft hnodupLeft
        (fun p hp => hnodes p (.inl hp)) (show left.numNodes ≤ fuel by omega)
      -- what the left subtree leaves is still there
      have hstays : ∀ p, p ∈ heap.nodes → p ∉ inorder left → p ∈ first.nodes := by
        intro p hp hout
        rcases List.mem_append.mp (hpermFirst.mem_iff.mp hp) with hin | hin
        · exact absurd hin hout
        · exact hin
      have hkept : Layout first.zset.tree (some node) right := by
        refine hright.congr fun p hp => houtFirst p ?_
        intro hpLeft
        exact hcross p hpLeft p (List.mem_cons_of_mem _ hp) rfl
      obtain ⟨second, hsecond, hpermSecond, houtSecond⟩ := ihRight first hkept
        hnodupRight
        (fun p hp => hstays p (hnodes p (.inr (.inr hp))) fun hpLeft =>
          hcross p hpLeft p (List.mem_cons_of_mem _ hp) rfl)
        (show right.numNodes ≤ fuel by omega)
      have hlast : node ∈ second.nodes := by
        have hin := hstays node (hnodes node (.inr (.inl rfl))) hrootLeft
        rcases List.mem_append.mp (hpermSecond.mem_iff.mp hin) with hin | hin
        · exact absurd hin hroot
        · exact hin
      obtain ⟨heap', hfree⟩ := ZHeap.exists_free garbage second hlast
      obtain ⟨_, hrest, hother, _⟩ := ZHeap.free_eq_some hfree
      refine ⟨heap', ?_, ?_, ?_⟩
      · have hrightLink : (first.zset.tree node).right = rootLabel right := by
          rw [houtFirst node hrootLeft, hcell, nodeCell]
        have hleftLink : (heap.zset.tree node).left = rootLabel left := by
          rw [hcell, nodeCell]
        rw [show rootLabel (.node node left right) = some node from rfl]
        simp only [treeDisposeNodes, hleftLink, hfirst, hrightLink, hsecond,
          Option.bind_eq_bind, Option.bind_some, hfree]
      · calc
          heap.nodes.Perm (inorder left ++ first.nodes) := hpermFirst
          _ |>.Perm (inorder left ++ (inorder right ++ second.nodes)) :=
            hpermSecond.append_left _
          _ |>.Perm (inorder left ++ (inorder right ++ node :: heap'.nodes)) := by
            rw [hrest]
            exact ((List.perm_cons_erase hlast).append_left _).append_left _
          _ |>.Perm (inorder (.node node left right) ++ heap'.nodes) := by
            rw [inorder, List.append_assoc]
            exact List.perm_middle.append_left _
      · intro p hp
        simp only [inorder, List.mem_append, List.mem_cons, not_or] at hp
        obtain ⟨hpLeft, hpRoot, hpRight⟩ := hp
        rw [(hother p hpRoot).1, houtSecond p hpRight, houtFirst p hpLeft]

theorem ZHeap.Holds.clear (h : heap.Holds scores) (garbage : Garbage) :
    ∃ heap', zsetClearNodes garbage heap = some heap' ∧ heap'.nodes = [] ∧
      heap'.zset.root = none := by
  obtain ⟨tree, htree⟩ := h.maps.inv
  have hperm : heap.nodes.Perm (inorder tree) := h.nodes.trans htree.same
  obtain ⟨last, hdispose, hfreed, _⟩ := treeDisposeNodes_spec garbage
    { heap with zset := { heap.zset with hmap := hmClear heap.zset.hmap } }
    htree.layout htree.sorted.nodup (fun p hp => hperm.mem_iff.mpr hp)
    htree.numNodes_le
  rw [← htree.root] at hdispose
  refine ⟨{ last with zset := { last.zset with root := none } }, ?_, ?_, rfl⟩
  · simp only [zsetClearNodes, hdispose, Option.bind_eq_bind, Option.bind_some]
  · have hlength := (hperm.symm.trans hfreed).length_eq
    rw [List.length_append] at hlength
    exact List.length_eq_zero_iff.mp (Nat.left_eq_add.mp hlength)

/-! Whole runs.  Between two operations anything may be written to nodes that
are not allocated. -/

inductive ZHeapStep : ZHeap × (Bytes → Option Int) → ZHeap × (Bytes → Option Int) →
    Prop
  | insert {heap heap' : ZHeap} {scores : Bytes → Option Int} (name : Bytes)
      (score : Double) {added : Bool} (number : score.isNaN = false)
      (result : zsetInsertNodes heap name score = some (heap', added)) :
      ZHeapStep (heap, scores) (heap', Function.update scores name (some score.key))
  | lookup {heap heap' : ZHeap} {scores : Bytes → Option Int} (name : Bytes)
      {found : Option Ptr} (result : zsetLookupNodes heap name = some (heap', found)) :
      ZHeapStep (heap, scores) (heap', scores)
  | delete {heap between heap' : ZHeap} {scores : Bytes → Option Int} (name : Bytes)
      (garbage : Garbage) {node : Ptr}
      (found : zsetLookupNodes heap name = some (between, some node))
      (result : zsetDeleteNodes garbage between node = some heap') :
      ZHeapStep (heap, scores) (heap', Function.update scores name none)
  | outside {heap : ZHeap} {scores : Bytes → Option Int} (tree : AVLMem)
      (node : Ptr → ZNode)
      (same : ∀ p ∈ heap.nodes, tree p = heap.zset.tree p ∧ node p = heap.zset.node p) :
      ZHeapStep (heap, scores)
        ({ heap with zset := { heap.zset with tree := tree, node := node } }, scores)

def ZHeapReachable (heap : ZHeap) (scores : Bytes → Option Int) : Prop :=
  Relation.ReflTransGen ZHeapStep ({}, fun _ => none) (heap, scores)

theorem ZHeapStep.holds {state state' : ZHeap × (Bytes → Option Int)}
    (hstep : ZHeapStep state state') (h : state.1.Holds state.2) :
    state'.1.Holds state'.2 := by
  cases hstep with
  | insert name score number result =>
      obtain ⟨_, _, hinsert, hholds, _⟩ := h.insert name number
      rw [result] at hinsert
      cases hinsert
      exact hholds
  | lookup name result =>
      obtain ⟨_, _, hlookup, hholds, _⟩ := h.lookup name
      rw [result] at hlookup
      cases hlookup
      exact hholds
  | delete name garbage found result =>
      obtain ⟨_, _, hlookup, hholds, hnodes, hnode, hfound⟩ := h.lookup name
      rw [found] at hlookup
      cases hlookup
      obtain ⟨hin, rfl⟩ := (hfound _).mp rfl
      rw [← hnodes] at hin
      obtain ⟨_, hdelete, hholds'⟩ := hholds.delete garbage hin
      rw [result] at hdelete
      cases hdelete
      rw [hnode] at hholds'
      exact hholds'
  | outside tree node same =>
      have hsame := fun p hp => same p (h.nodes.mem_iff.mpr hp)
      refine ⟨h.maps.sameNodes ⟨rfl, rfl, rfl, ?_, ?_⟩, h.nodes⟩
      · exact fun p hp => (hsame p hp).1
      · exact fun p hp => (hsame p hp).2

theorem ZHeapReachable.holds (h : ZHeapReachable heap scores) :
    heap.Holds scores := by
  have hall : ∀ state, Relation.ReflTransGen ZHeapStep ({}, fun _ => none) state →
      state.1.Holds state.2 := by
    intro state hreach
    induction hreach with
    | refl => exact ⟨ZSet.Maps.empty, .refl _⟩
    | tail _ hstep ih => exact hstep.holds ih
  exact hall _ h

/-- In every run the allocated nodes are those in both indexes, whatever is
written to freed ones; no node is freed twice, and clearing the set frees what
is left. -/
theorem znodes_freed_once (hreach : ZHeapReachable heap scores) :
    (∃ nodes, heap.zset.Agreement scores nodes ∧ heap.nodes.Perm nodes) ∧
    (∀ name score, score.isNaN = false →
      ∃ heap' added, zsetInsertNodes heap name score = some (heap', added) ∧
        (added = true ↔ scores name = none)) ∧
    (∀ name, ∃ heap' found, zsetLookupNodes heap name = some (heap', found) ∧
      (found = none ↔ scores name = none) ∧
      ∀ p, found = some p →
        scores name = some (heap'.zset.node p).score.key ∧
        ∀ garbage, ∃ heap'', zsetDeleteNodes garbage heap' p = some heap'') ∧
    ∀ garbage, ∃ heap', zsetClearNodes garbage heap = some heap' ∧ heap'.nodes = [] ∧
      heap'.zset.root = none := by
  have h := hreach.holds
  refine ⟨?_, ?_, ?_, h.clear⟩
  · obtain ⟨nodes, hagree⟩ := h.maps.agreement
    have hnodup : nodes.Nodup := .of_map _ hagree.names
    refine ⟨nodes, hagree, (List.perm_ext_iff_of_nodup h.nodup hnodup).mpr ?_⟩
    intro p
    rw [h.nodes.mem_iff, hagree.sameNodes]
  · intro name score hscore
    obtain ⟨heap', added, hinsert, _, hadded⟩ := h.insert name hscore
    exact ⟨heap', added, hinsert, hadded⟩
  · intro name
    obtain ⟨heap', found, hlookup, hholds, hnodes, hnode, hfound⟩ := h.lookup name
    refine ⟨heap', found, hlookup, ?_, ?_⟩
    · rw [h.maps.none_iff]
      constructor
      · rintro rfl p hp hname
        cases (hfound p).mpr ⟨h.nodes.mem_iff.mpr hp, hname⟩
      · intro hmiss
        cases found with
        | none => rfl
        | some p =>
            obtain ⟨hin, hname⟩ := (hfound p).mp rfl
            exact absurd hname (hmiss p (h.nodes.mem_iff.mp hin))
    · intro p hp
      obtain ⟨hin, hname⟩ := (hfound p).mp hp
      refine ⟨?_, ?_⟩
      · rw [hnode]
        exact (h.maps.pairs _ _).mpr ⟨p, h.nodes.mem_iff.mp hin, hname, rfl⟩
      · intro garbage
        rw [← hnodes] at hin
        obtain ⟨heap'', hdelete, _⟩ := hholds.delete garbage hin
        exact ⟨heap'', hdelete⟩

theorem znodes_freed_once_two : ∃ heap looked scores p,
    ZHeapReachable heap scores ∧ heap.nodes.length = 2 ∧
      zsetLookupNodes heap [97] = some (looked, some p) ∧
      (∀ garbage, ∃ heap', zsetDeleteNodes garbage looked p = some heap') ∧
      ∀ garbage, ∃ heap', zsetClearNodes garbage heap = some heap' ∧
        heap'.nodes = [] ∧ heap'.zset.root = none := by
  have heval : (do
      let (heap, _) ← zsetInsertNodes {} [97] {}
      let (heap, _) ← zsetInsertNodes heap [98] {}
      some heap.nodes.length) = some 2 := by
    decide +kernel
  obtain ⟨⟨first, _⟩, hfirst, heval⟩ := Option.bind_eq_some_iff.mp heval
  obtain ⟨⟨heap, _⟩, hsecond, heval⟩ := Option.bind_eq_some_iff.mp heval
  have hreach : ZHeapReachable heap _ := .tail (.single
    (.insert [97] {} (by decide) hfirst)) (.insert [98] {} (by decide) hsecond)
  obtain ⟨-, -, hlookups, hclear⟩ := znodes_freed_once hreach
  obtain ⟨looked, found, hlookup, hmiss, hfound⟩ := hlookups [97]
  cases found with
  | none => simp at hmiss
  | some p =>
      exact ⟨heap, looked, _, p, hreach, Option.some.inj heval, hlookup,
        (hfound p rfl).2, hclear⟩

end MiniRedis.Ds
