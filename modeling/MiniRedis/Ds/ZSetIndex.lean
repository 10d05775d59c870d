import MiniRedis.Data.SearchTree
import MiniRedis.Ds.AvlDel
import MiniRedis.Ds.ZSet
import MiniRedis.Store.KeyIndex

namespace MiniRedis.Ds

open MiniRedis.Data MiniRedis.Store

/-! The two indexes of a sorted set hold the same nodes. -/

/-- Where a pair sorts: by score, then by name. -/
def tupleRank (score : Double) (name : Bytes) : Int ×ₗ List Nat :=
  toLex (score.key, byteOrder name)

def ZSet.rank (zset : ZSet) (p : Ptr) : Int ×ₗ List Nat :=
  tupleRank (zset.node p).score (zset.node p).name

theorem zlessKey_iff {lhs : ZNode} {score : Double} {name : Bytes}
    (hlhs : lhs.score.isNaN = false) (hscore : score.isNaN = false) :
    zlessKey lhs score name = true ↔
      tupleRank lhs.score lhs.name < tupleRank score name := by
  rw [tupleRank, tupleRank, Prod.Lex.toLex_lt_toLex, ← memcmp_lt_iff]
  by_cases heq : lhs.score.ieeeEq score = true
  · have hkey := (Double.ieeeEq_iff hlhs hscore).mp heq
    simp only [zlessKey, heq, hkey, Bool.not_true, Bool.false_eq_true,
      if_false, lt_irrefl, false_or, true_and]
    cases memcmp (min lhs.name.length name.length) lhs.name name with
    | lt => simp
    | eq => simp
    | gt => simp
  · have hkey : lhs.score.key ≠ score.key := fun hkey =>
      heq ((Double.ieeeEq_iff hlhs hscore).mpr hkey)
    have hne : lhs.score.ieeeEq score = false := by simpa using heq
    simp only [zlessKey, hne, Bool.not_false, if_true, hkey, false_and,
      or_false]
    exact Double.ieeeLt_iff hlhs hscore

theorem hcmp_iff {znode : ZNode} {name : Bytes} :
    hcmp znode name = true ↔ znode.name = name := by
  by_cases hlength : znode.name.length = name.length
  · simp [hcmp, hlength, ← memcmp_eq_iff hlength]
  · have hne : znode.name ≠ name := fun heq => hlength (by rw [heq])
    simp [hcmp, hlength, hne]

structure ZSet.Inv (zset : ZSet) (tree : BinaryTree Ptr) : Prop where
  layout : Layout zset.tree none tree
  root : zset.root = rootLabel tree
  balanced : HeightBalanced tree
  sorted : SortedBy zset.rank (inorder tree)
  index : zset.hmap.Indexed zset.hcode (fun p => (zset.node p).name) strHash
  same : zset.hmap.nodes.Perm (inorder tree)
  numbers : ∀ p ∈ inorder tree, (zset.node p).score.isNaN = false
  bound : ∀ p ∈ inorder tree, p < zset.alloc

theorem length_le_of_bound {nodes : List Ptr} {bound : Nat}
    (hnodup : nodes.Nodup) (hbound : ∀ p ∈ nodes, p < bound) :
    nodes.length ≤ bound := by
  have hsubset : nodes ⊆ List.range bound := fun p hp =>
    List.mem_range.mpr (hbound p hp)
  simpa using (List.subperm_of_subset hnodup hsubset).length_le

theorem ZSet.Inv.numNodes_le {zset : ZSet} {tree : BinaryTree Ptr}
    (h : zset.Inv tree) : tree.numNodes ≤ zset.alloc := by
  rw [← length_inorder]
  exact length_le_of_bound h.sorted.nodup h.bound

/-! Insertion into the tree. -/

theorem treeWalk_spec {zset : ZSet} (node : Ptr) {fuel : Nat}
    {tree : BinaryTree Ptr} {parent : Option Ptr} (context : Context Ptr)
    (h : Layout zset.tree parent tree) (hfuel : tree.numNodes ≤ fuel) :
    treeWalk zset node fuel (holeLink context) (rootLabel tree) =
      some (holeLink (descend
        (fun p => zless (zset.node node) (zset.node p)) tree context)) := by
  induction tree generalizing fuel parent context with
  | nil =>
      cases fuel <;> rfl
  | node p left right ihLeft ihRight =>
      obtain ⟨hcell, hleft, hright⟩ := h
      simp only [BinaryTree.numNodes] at hfuel
      obtain ⟨fuel, rfl⟩ :=
        Nat.exists_eq_succ_of_ne_zero (by omega : fuel ≠ 0)
      simp only [rootLabel, treeWalk, descend, hcell]
      by_cases hgo : zless (zset.node node) (zset.node p) = true
      · simp only [hgo, if_true]
        exact ihLeft (⟨.left, p, right⟩ :: context) hleft (by omega)
      · simp only [hgo, if_false, Bool.false_eq_true]
        exact ihRight (⟨.right, p, left⟩ :: context) hright (by omega)

/-- A node that is in the name index but not yet in the tree. -/
structure ZSet.Pending (zset : ZSet) (tree : BinaryTree Ptr) (node : Ptr) :
    Prop where
  layout : Layout zset.tree none tree
  root : zset.root = rootLabel tree
  balanced : HeightBalanced tree
  sorted : SortedBy zset.rank (inorder tree)
  index : zset.hmap.Indexed zset.hcode (fun p => (zset.node p).name) strHash
  same : zset.hmap.nodes.Perm (node :: inorder tree)
  numbers : ∀ p ∈ node :: inorder tree, (zset.node p).score.isNaN = false
  bound : ∀ p ∈ node :: inorder tree, p < zset.alloc
  init : zset.tree node = avlInit

theorem ZSet.Pending.nodup {zset : ZSet} {tree : BinaryTree Ptr} {node : Ptr}
    (h : zset.Pending tree node) : (node :: inorder tree).Nodup :=
  h.same.nodup_iff.mp h.index.inv.nodup

theorem ZSet.Pending.rank_ne {zset : ZSet} {tree : BinaryTree Ptr} {node : Ptr}
    (h : zset.Pending tree node) {p : Ptr} (hp : p ∈ inorder tree) :
    zset.rank p ≠ zset.rank node := by
  intro heq
  have hname : (zset.node p).name = (zset.node node).name := by
    have hpair := toLex.injective heq
    exact byteOrder_injective (congrArg Prod.snd hpair)
  have hsame : p = node := h.index.distinct p
    (h.same.mem_iff.mpr (List.mem_cons_of_mem _ hp)) node
    (h.same.mem_iff.mpr List.mem_cons_self) hname
  exact (List.nodup_cons.mp h.nodup).1 (hsame ▸ hp)

theorem ZSet.Pending.zless_iff {zset : ZSet} {tree : BinaryTree Ptr}
    {node : Ptr} (h : zset.Pending tree node) {p : Ptr}
    (hp : p ∈ inorder tree) :
    zless (zset.node node) (zset.node p) = true ↔
      zset.rank node < zset.rank p :=
  zlessKey_iff (h.numbers node List.mem_cons_self)
    (h.numbers p (List.mem_cons_of_mem _ hp))

/-- The descent finds the hole between the smaller pairs and the greater
ones. -/
theorem ZSet.Pending.hole {zset : ZSet} {tree : BinaryTree Ptr} {node : Ptr}
    (h : zset.Pending tree node) :
    ∃ context : Context Ptr, tree = context.plug .nil ∧
      treeWalk zset node zset.alloc none zset.root = some (holeLink context) ∧
      SortedBy zset.rank (context.before ++ node :: context.after) := by
  let goLeft := fun p => zless (zset.node node) (zset.node p)
  have hlength := length_le_of_bound h.nodup h.bound
  rw [List.length_cons, length_inorder] at hlength
  have hsplits : Splits goLeft (inorder tree) := by
    apply h.sorted.imp_of_mem
    intro first second hfirst hsecond hlt hgo
    rw [h.zless_iff hsecond]
    exact lt_trans ((h.zless_iff hfirst).mp hgo) hlt
  obtain ⟨hbefore, hafter⟩ := descend_spec [] hsplits
    (by simp [Context.before]) (by simp [Context.after])
  have hplug : tree = (descend goLeft tree []).plug .nil :=
    (plug_descend goLeft tree []).symm
  have horder : (descend goLeft tree []).before ++
      (descend goLeft tree []).after = inorder tree := by
    conv_rhs => rw [hplug, Context.inorder_plug]
    simp [inorder]
  have hmem : ∀ p, p ∈ (descend goLeft tree []).before ∨
      p ∈ (descend goLeft tree []).after → p ∈ inorder tree := by
    intro p hp
    rw [← horder]
    exact List.mem_append.mpr hp
  refine ⟨descend goLeft tree [], hplug, ?_, ?_⟩
  · rw [h.root]
    exact treeWalk_spec node [] h.layout (by omega)
  · apply SortedBy.insert
    · rw [horder]
      exact h.sorted
    · intro p hp
      rw [← h.zless_iff (hmem p (.inl hp)), show zless (zset.node node)
        (zset.node p) = false from hbefore p hp]
      simp
    · intro p hp
      exact (h.zless_iff (hmem p (.inr hp))).mp (hafter p hp)
    · intro p hp
      exact h.rank_ne (hmem p (.inl hp))

theorem ZSet.Pending.treeInsert {zset : ZSet} {tree : BinaryTree Ptr}
    {node : Ptr} (h : zset.Pending tree node) :
    ∃ mem root after, treeInsert zset node =
        some { zset with tree := mem, root := some root } ∧
      ZSet.Inv { zset with tree := mem, root := some root } after := by
  obtain ⟨hfresh, hnodup⟩ := List.nodup_cons.mp h.nodup
  obtain ⟨context, rfl, hwalk, hsorted⟩ := h.hole
  have hlength : context.length < zset.alloc + 1 := by
    have hdepth := context.length_add_numNodes_le .nil
    have hsize := length_le_of_bound h.nodup h.bound
    rw [List.length_cons, length_inorder] at hsize
    omega
  obtain ⟨mem, root, after, hfix, hroot, hinserted⟩ :=
    avlLink_spec h.layout hnodup h.balanced hfresh h.init hlength
  have hperm : (inorder after).Perm (node :: inorder (context.plug .nil)) := by
    rw [hinserted.inorder_eq, Context.inorder_plug]
    simp [inorder]
  refine ⟨mem, root, after, ?_, hinserted.layout, hroot.symm,
    hinserted.balanced, ?_, h.index, h.same.trans hperm.symm, ?_, ?_⟩
  · simp [Ds.treeInsert, hwalk, hfix]
  · rw [hinserted.inorder_eq]
    exact hsorted
  · intro p hp
    exact h.numbers p (hperm.mem_iff.mp hp)
  · intro p hp
    exact h.bound p (hperm.mem_iff.mp hp)

/-! The operations on the map from names to scores. -/

structure ZSet.Maps (zset : ZSet) (scores : Bytes → Option Int) : Prop where
  inv : ∃ tree, zset.Inv tree
  pairs : ∀ name score, scores name = some score ↔
    ∃ p ∈ zset.hmap.nodes, (zset.node p).name = name ∧
      (zset.node p).score.key = score

theorem ZSet.Maps.empty : ZSet.Maps {} fun _ => none where
  inv := ⟨.nil, trivial, rfl, trivial, List.Pairwise.nil, HMap.Indexed.empty,
    List.Perm.refl _, by simp [inorder], by simp [inorder]⟩
  pairs := by simp [HMap.nodes]

theorem ZSet.Maps.none_iff {zset : ZSet} {scores : Bytes → Option Int}
    (h : zset.Maps scores) {name : Bytes} :
    scores name = none ↔
      ∀ p ∈ zset.hmap.nodes, (zset.node p).name ≠ name := by
  constructor
  · intro hnone p hp hname
    have hsome := (h.pairs name _).mpr ⟨p, hp, hname, rfl⟩
    rw [hnone] at hsome
    cases hsome
  · intro hmiss
    cases hscore : scores name with
    | none => rfl
    | some score =>
        obtain ⟨p, hp, hname, _⟩ := (h.pairs name score).mp hscore
        exact absurd hname (hmiss p hp)

def ZSet.scores (zset : ZSet) (name : Bytes) : Option Int :=
  (zset.hmap.nodes.find? fun p => (zset.node p).name == name).map fun p =>
    (zset.node p).score.key

theorem ZSet.Inv.maps {zset : ZSet} {tree : BinaryTree Ptr}
    (h : zset.Inv tree) : zset.Maps zset.scores := by
  refine ⟨⟨tree, h⟩, ?_⟩
  intro name score
  rw [ZSet.scores, Option.map_eq_some_iff]
  constructor
  · rintro ⟨p, hfind, hscore⟩
    exact ⟨p, List.mem_of_find?_eq_some hfind, by
      simpa using List.find?_some hfind, hscore⟩
  · rintro ⟨p, hp, hname, hscore⟩
    cases hfind : zset.hmap.nodes.find? fun p => (zset.node p).name == name with
    | none =>
        have hmiss := List.find?_eq_none.mp hfind p hp
        simp [hname] at hmiss
    | some q =>
        have hq : (zset.node q).name = name := by
          simpa using List.find?_some hfind
        have hsame := h.index.distinct q (List.mem_of_find?_eq_some hfind) p hp
          (hq.trans hname.symm)
        exact ⟨q, rfl, hsame ▸ hscore⟩

theorem ZSet.Maps.eq_scores {zset : ZSet} {scores : Bytes → Option Int}
    (h : zset.Maps scores) : zset.scores = scores := by
  obtain ⟨tree, htree⟩ := h.inv
  funext name
  apply Option.ext
  intro score
  rw [htree.maps.pairs, h.pairs]

theorem ZSet.probe_seeks (zset : ZSet) (nodes : List Ptr) (name : Bytes) :
    (zset.probe (strHash name) name).Seeks nodes
      (fun p => (zset.node p).name) strHash name where
  hcode := rfl
  eq _ _ := hcmp_iff

theorem ZSet.Inv.root_none {zset : ZSet} {tree : BinaryTree Ptr}
    (h : zset.Inv tree) : zset.root = none ↔ zset.hmap.nodes = [] := by
  have hempty : zset.hmap.nodes = [] ↔ inorder tree = [] := by
    rw [← List.length_eq_zero_iff, h.same.length_eq, List.length_eq_zero_iff]
  rw [h.root, hempty]
  cases tree <;> simp [rootLabel, inorder]

theorem ZSet.Inv.rehash {zset : ZSet} {tree : BinaryTree Ptr}
    {hmap : HMap Ptr} (h : zset.Inv tree)
    (hindex : hmap.Indexed zset.hcode (fun p => (zset.node p).name) strHash)
    (hperm : hmap.nodes.Perm zset.hmap.nodes) :
    ZSet.Inv { zset with hmap := hmap } tree :=
  ⟨h.layout, h.root, h.balanced, h.sorted, hindex, hperm.trans h.same,
    h.numbers, h.bound⟩

theorem zsetLookup_spec {zset : ZSet} {scores : Bytes → Option Int}
    (h : zset.Maps scores) (name : Bytes) :
    ∃ hmap found, zsetLookup zset name =
        some ({ zset with hmap := hmap }, found) ∧
      ZSet.Maps { zset with hmap := hmap } scores ∧
      hmap.nodes.Perm zset.hmap.nodes ∧
      ∀ p, found = some p ↔
        p ∈ zset.hmap.nodes ∧ (zset.node p).name = name := by
  obtain ⟨tree, htree⟩ := h.inv
  by_cases hroot : zset.root.isNone = true
  · have hnodes := htree.root_none.mp (Option.isNone_iff_eq_none.mp hroot)
    refine ⟨zset.hmap, none, ?_, h, List.Perm.refl _, ?_⟩
    · rw [zsetLookup, if_pos hroot]
    · simp [hnodes]
  · obtain ⟨hmap, found, hlookup, hindex, hperm, hfound⟩ :=
      htree.index.lookup (zset.probe_seeks zset.hmap.nodes name)
    refine ⟨hmap, found, ?_, ⟨⟨tree, htree.rehash hindex hperm⟩, ?_⟩, hperm,
      hfound⟩
    · simp only [zsetLookup, if_neg hroot, hlookup, Option.bind_eq_bind,
        Option.bind_some]
    · intro other score
      rw [h.pairs]
      simp only [hperm.mem_iff]

theorem ZSet.Maps.store {zset zset' : ZSet} {scores : Bytes → Option Int}
    (h : zset.Maps scores) {tree : BinaryTree Ptr} (hinv : zset'.Inv tree)
    (node : Ptr)
    (hmem : ∀ p, p ∈ zset'.hmap.nodes ↔ p = node ∨ p ∈ zset.hmap.nodes)
    (hold : node ∈ zset.hmap.nodes →
      (zset.node node).name = (zset'.node node).name)
    (hothers : ∀ p ∈ zset.hmap.nodes, p ≠ node →
      zset'.node p = zset.node p) :
    zset'.Maps (Function.update scores (zset'.node node).name
      (some (zset'.node node).score.key)) := by
  have hnode : node ∈ zset'.hmap.nodes := (hmem node).mpr (.inl rfl)
  refine ⟨⟨tree, hinv⟩, ?_⟩
  intro name score
  by_cases hname : name = (zset'.node node).name
  · subst hname
    rw [Function.update_self, Option.some.injEq]
    constructor
    · rintro rfl
      exact ⟨node, hnode, rfl, rfl⟩
    · rintro ⟨p, hp, hpname, hpscore⟩
      rw [hinv.index.distinct node hnode p hp hpname.symm, hpscore]
  · rw [Function.update_of_ne hname, h.pairs]
    constructor
    · rintro ⟨p, hp, hpname, hpscore⟩
      have hne : p ≠ node := by
        rintro rfl
        exact hname (hpname.symm.trans (hold hp))
      refine ⟨p, (hmem p).mpr (.inr hp), ?_⟩
      rw [hothers p hp hne]
      exact ⟨hpname, hpscore⟩
    · rintro ⟨p, hp, hpname, hpscore⟩
      have hne : p ≠ node := by
        rintro rfl
        exact hname hpname.symm
      have hp' := ((hmem p).mp hp).resolve_left hne
      rw [hothers p hp' hne] at hpname hpscore
      exact ⟨p, hp', hpname, hpscore⟩

theorem ZSet.setNode_self (zset : ZSet) (p : Ptr) (node : ZNode) :
    (zset.setNode p node).node p = node := by
  simp [ZSet.setNode]

theorem ZSet.setNode_other (zset : ZSet) {p q : Ptr} (node : ZNode)
    (hne : q ≠ p) : (zset.setNode p node).node q = zset.node q := by
  simp [ZSet.setNode, hne]

theorem ZSet.Inv.detach {zset : ZSet} {tree : BinaryTree Ptr} {node : Ptr}
    (h : zset.Inv tree) (hnode : node ∈ inorder tree) :
    ∃ mem after, avlDel zset.alloc zset.tree node =
        some (mem, rootLabel after) ∧
      Layout mem none after ∧ HeightBalanced after ∧
      SortedBy zset.rank (inorder after) ∧
      (inorder tree).Perm (node :: inorder after) ∧
      node ∉ inorder after := by
  obtain ⟨mem, after, hdel, hdeleted⟩ := avlDel_spec h.layout h.sorted.nodup
    h.balanced hnode h.numNodes_le
  refine ⟨mem, after, hdel, hdeleted.layout, hdeleted.balanced, ?_, ?_, ?_⟩
  · rw [hdeleted.inorder_eq]
    exact h.sorted.sublist List.erase_sublist
  · rw [hdeleted.inorder_eq]
    exact List.perm_cons_erase hnode
  · rw [hdeleted.inorder_eq]
    exact h.sorted.nodup.not_mem_erase

section Rescore

variable (zset : ZSet) (mem : AVLMem) (root : Option Ptr) (node : Ptr)
  (score : Double)

theorem ZSet.rescore_self :
    (zset.rescore mem root node score).node node =
      { zset.node node with score := score } :=
  ZSet.setNode_self _ _ _

theorem ZSet.rescore_other {p : Ptr} (hne : p ≠ node) :
    (zset.rescore mem root node score).node p = zset.node p :=
  ZSet.setNode_other _ _ hne

theorem ZSet.rescore_name (p : Ptr) :
    ((zset.rescore mem root node score).node p).name = (zset.node p).name := by
  by_cases hp : p = node
  · rw [hp, ZSet.rescore_self]
  · rw [ZSet.rescore_other _ _ _ _ _ hp]

theorem ZSet.rescore_hcode (p : Ptr) :
    (zset.rescore mem root node score).hcode p = zset.hcode p := by
  by_cases hp : p = node
  · rw [hp, ZSet.hcode, ZSet.rescore_self, ZSet.hcode]
  · rw [ZSet.hcode, ZSet.rescore_other _ _ _ _ _ hp, ZSet.hcode]

end Rescore

theorem ZSet.Inv.rescore_pending {zset : ZSet} {tree after : BinaryTree Ptr}
    {mem : AVLMem} {node : Ptr} {score : Double} (h : zset.Inv tree)
    (hlayout : Layout mem none after) (hbalanced : HeightBalanced after)
    (hsorted : SortedBy zset.rank (inorder after))
    (hperm : (inorder tree).Perm (node :: inorder after))
    (hgone : node ∉ inorder after) (hscore : score.isNaN = false) :
    (zset.rescore mem (rootLabel after) node score).Pending after node := by
  have hother : ∀ p ∈ inorder after,
      (zset.rescore mem (rootLabel after) node score).node p = zset.node p :=
    fun p hp => ZSet.rescore_other _ _ _ _ _ fun heq => hgone (heq ▸ hp)
  refine ⟨hlayout.congr ?_, rfl, hbalanced, ?_, ?_, h.same.trans hperm, ?_, ?_,
    AVLMem.write_self _ _ _⟩
  · intro p hp
    exact AVLMem.write_other _ _ fun heq => hgone (heq ▸ hp)
  · apply hsorted.imp_of_mem
    intro first second hfirst hsecond hlt
    rw [ZSet.rank, hother first hfirst, ZSet.rank, hother second hsecond]
    exact hlt
  · exact h.index.congr (fun p _ => ZSet.rescore_hcode _ _ _ _ _ p)
      (fun p _ => ZSet.rescore_name _ _ _ _ _ p)
  · intro p hp
    rcases List.mem_cons.mp hp with rfl | hp
    · rw [ZSet.rescore_self]
      exact hscore
    · rw [hother p hp]
      exact h.numbers p (hperm.mem_iff.mpr (List.mem_cons_of_mem _ hp))
  · intro p hp
    exact h.bound p (hperm.mem_iff.mpr hp)

theorem zsetUpdate_spec {zset : ZSet} {scores : Bytes → Option Int}
    (h : zset.Maps scores) {node : Ptr} (hnode : node ∈ zset.hmap.nodes)
    {score : Double} (hscore : score.isNaN = false) :
    ∃ zset', zsetUpdate zset node score = some zset' ∧
      zset'.Maps (Function.update scores (zset.node node).name
        (some score.key)) := by
  obtain ⟨tree, htree⟩ := h.inv
  have hmem := htree.same.mem_iff.mp hnode
  have hnumber := htree.numbers node hmem
  by_cases heq : (zset.node node).score.ieeeEq score = true
  · refine ⟨zset, by simp [zsetUpdate, heq], ?_⟩
    rw [← (Double.ieeeEq_iff hnumber hscore).mp heq]
    have hstored := (h.pairs _ _).mpr ⟨node, hnode, rfl, rfl⟩
    rw [← hstored, Function.update_eq_self]
    exact h
  · obtain ⟨mem, after, hdel, hlayout, hbalanced, hsorted, hperm, hgone⟩ :=
      htree.detach hmem
    obtain ⟨mem', root', after', hinsert, hinv⟩ := (htree.rescore_pending
      hlayout hbalanced hsorted hperm hgone hscore).treeInsert
    have hstore := h.store hinv node
      (fun p => ⟨Or.inr, fun hp => hp.elim (fun heq => heq ▸ hnode) id⟩)
      (fun _ => (ZSet.rescore_name _ _ _ _ _ node).symm)
      (fun p _ hp => ZSet.rescore_other _ _ _ _ _ hp)
    refine ⟨{ zset.rescore mem (rootLabel after) node score with
      tree := mem', root := some root' }, ?_, ?_⟩
    · simp only [zsetUpdate, heq, hdel, Option.bind_eq_bind, Option.bind_some,
        if_false, Bool.false_eq_true]
      exact hinsert
    · simpa only [ZSet.rescore_self] using hstore

section Create

variable {zset : ZSet} {tree : BinaryTree Ptr} {name : Bytes} {score : Double}

theorem znodeNew_self :
    (znodeNew zset name score).1.node zset.alloc =
      ⟨strHash name, score, name⟩ :=
  ZSet.setNode_self _ _ _

theorem ZSet.Inv.znodeNew_other (h : zset.Inv tree) {p : Ptr}
    (hp : p ∈ inorder tree) :
    (znodeNew zset name score).1.node p = zset.node p :=
  ZSet.setNode_other _ _ (Nat.ne_of_lt (h.bound p hp))

theorem ZSet.Inv.alloc_fresh (h : zset.Inv tree) :
    zset.alloc ∉ inorder tree :=
  fun hmem => Nat.lt_irrefl _ (h.bound _ hmem)

theorem ZSet.Inv.create (h : zset.Inv tree)
    (hname : ∀ p ∈ zset.hmap.nodes, (zset.node p).name ≠ name)
    (hscore : score.isNaN = false) :
    ∃ hmap, hmInsert (znodeNew zset name score).1.hcode zset.hmap zset.alloc =
        some hmap ∧
      ZSet.Pending { (znodeNew zset name score).1 with hmap := hmap } tree
        zset.alloc := by
  have hother : ∀ p ∈ zset.hmap.nodes,
      (znodeNew zset name score).1.node p = zset.node p :=
    fun p hp => h.znodeNew_other (h.same.mem_iff.mp hp)
  have hindex : zset.hmap.Indexed (znodeNew zset name score).1.hcode
      (fun p => ((znodeNew zset name score).1.node p).name) strHash := by
    apply h.index.congr
    · intro p hp
      rw [ZSet.hcode, hother p hp, ZSet.hcode]
    · intro p hp
      rw [hother p hp]
  obtain ⟨hmap, hinsert, hindex', hperm⟩ := hindex.insert
    (fun hmem => h.alloc_fresh (h.same.mem_iff.mp hmem))
    (by rw [ZSet.hcode, znodeNew_self]) (by
      intro p hp
      rw [znodeNew_self, hother p hp]
      exact hname p hp)
  refine ⟨hmap, hinsert, h.layout.congr ?_, h.root, h.balanced, ?_, hindex',
    hperm.trans (h.same.cons _), ?_, ?_, AVLMem.write_self _ _ _⟩
  · intro p hp
    exact AVLMem.write_other _ _ (Nat.ne_of_lt (h.bound p hp))
  · apply h.sorted.imp_of_mem
    intro first second hfirst hsecond hlt
    rw [ZSet.rank, h.znodeNew_other hfirst, ZSet.rank, h.znodeNew_other hsecond]
    exact hlt
  · intro p hp
    rcases List.mem_cons.mp hp with rfl | hp
    · rw [znodeNew_self]
      exact hscore
    · rw [h.znodeNew_other hp]
      exact h.numbers p hp
  · intro p hp
    rcases List.mem_cons.mp hp with rfl | hp
    · exact Nat.lt_succ_self _
    · exact Nat.lt_succ_of_lt (h.bound p hp)

end Create

theorem zsetCreate_spec {zset : ZSet} {scores : Bytes → Option Int}
    (h : zset.Maps scores) {name : Bytes} {score : Double}
    (hnone : scores name = none) (hscore : score.isNaN = false) :
    ∃ zset', zsetCreate zset name score = some zset' ∧
      zset'.Maps (Function.update scores name (some score.key)) := by
  obtain ⟨tree, htree⟩ := h.inv
  obtain ⟨hmap, hinsert, hpending⟩ :=
    htree.create (h.none_iff.mp hnone) hscore
  obtain ⟨mem, root, after, htreeInsert, hinv⟩ := hpending.treeInsert
  have hnodes : ∀ p, p ∈ hmap.nodes ↔
      p = zset.alloc ∨ p ∈ zset.hmap.nodes := by
    intro p
    rw [hpending.same.mem_iff, List.mem_cons, htree.same.mem_iff]
  have hstore := h.store hinv zset.alloc hnodes
    (fun hmem => absurd (htree.same.mem_iff.mp hmem) htree.alloc_fresh)
    (fun p hp _ => htree.znodeNew_other (htree.same.mem_iff.mp hp))
  refine ⟨{ (znodeNew zset name score).1 with
    hmap := hmap, tree := mem, root := some root }, ?_, ?_⟩
  · have hinsert' : hmInsert (znodeNew zset name score).1.hcode
        (znodeNew zset name score).1.hmap (znodeNew zset name score).2 =
          some hmap := hinsert
    simp only [zsetCreate, hinsert', Option.bind_eq_bind, Option.bind_some]
    exact htreeInsert
  · simpa only [znodeNew_self] using hstore

theorem zsetInsert_spec {zset : ZSet} {scores : Bytes → Option Int}
    (h : zset.Maps scores) (name : Bytes) {score : Double}
    (hscore : score.isNaN = false) :
    ∃ zset' added, zsetInsert zset name score = some (zset', added) ∧
      zset'.Maps (Function.update scores name (some score.key)) ∧
      (added = true ↔ scores name = none) := by
  obtain ⟨hmap, found, hlookup, hmaps, hperm, hfound⟩ := zsetLookup_spec h name
  cases found with
  | some node =>
      obtain ⟨hnode, rfl⟩ := (hfound node).mp rfl
      obtain ⟨zset', hupdate, hmaps'⟩ :=
        zsetUpdate_spec hmaps (hperm.mem_iff.mpr hnode) hscore
      refine ⟨zset', false, by simp [zsetInsert, hlookup, hupdate], hmaps', ?_⟩
      simp only [Bool.false_eq_true, false_iff]
      exact fun hnone => h.none_iff.mp hnone node hnode rfl
  | none =>
      have hnone : scores name = none := by
        apply h.none_iff.mpr
        intro p hp hname
        have hsome := (hfound p).mpr ⟨hp, hname⟩
        cases hsome
      obtain ⟨zset', hcreate, hmaps'⟩ := zsetCreate_spec hmaps hnone hscore
      exact ⟨zset', true, by simp [zsetInsert, hlookup, hcreate], hmaps',
        by simp [hnone]⟩

theorem ZSet.Maps.remove {zset zset' : ZSet} {scores : Bytes → Option Int}
    (h : zset.Maps scores) {tree : BinaryTree Ptr} (hinv : zset'.Inv tree)
    {node : Ptr} (hnodes : zset.hmap.nodes.Perm (node :: zset'.hmap.nodes))
    (hothers : ∀ p ∈ zset'.hmap.nodes, zset'.node p = zset.node p) :
    zset'.Maps (Function.update scores (zset.node node).name none) := by
  obtain ⟨before, hbefore⟩ := h.inv
  have hmem : ∀ p ∈ zset'.hmap.nodes, p ∈ zset.hmap.nodes := fun p hp =>
    hnodes.mem_iff.mpr (List.mem_cons_of_mem node hp)
  refine ⟨⟨tree, hinv⟩, ?_⟩
  intro name score
  by_cases hname : name = (zset.node node).name
  · subst hname
    rw [Function.update_self]
    constructor
    · intro hcontra
      cases hcontra
    · rintro ⟨p, hp, hpname, _⟩
      rw [hothers p hp] at hpname
      have hsame := hbefore.index.distinct p (hmem p hp) node
        (hnodes.mem_iff.mpr List.mem_cons_self) hpname
      have hnodup := hnodes.nodup_iff.mp hbefore.index.inv.nodup
      exact absurd (hsame ▸ hp) (List.nodup_cons.mp hnodup).1
  · rw [Function.update_of_ne hname, h.pairs]
    constructor
    · rintro ⟨p, hp, hpname, hpscore⟩
      rcases List.mem_cons.mp (hnodes.mem_iff.mp hp) with rfl | hp'
      · exact absurd hpname.symm hname
      · refine ⟨p, hp', ?_⟩
        rw [hothers p hp']
        exact ⟨hpname, hpscore⟩
    · rintro ⟨p, hp, hpname, hpscore⟩
      rw [hothers p hp] at hpname hpscore
      exact ⟨p, hmem p hp, hpname, hpscore⟩

theorem zsetDelete_spec {zset : ZSet} {scores : Bytes → Option Int}
    (h : zset.Maps scores) {node : Ptr} (hnode : node ∈ zset.hmap.nodes) :
    ∃ zset', zsetDelete zset node = some zset' ∧
      zset'.Maps (Function.update scores (zset.node node).name none) := by
  obtain ⟨tree, htree⟩ := h.inv
  have hprobe : (zset.probe (zset.hcode node) (zset.node node).name).Seeks
      zset.hmap.nodes (fun p => (zset.node p).name) strHash
      (zset.node node).name := by
    rw [htree.index.hashed node hnode]
    exact zset.probe_seeks _ _
  obtain ⟨hmap, hdelete, hindex, hnodes⟩ := htree.index.delete hnode hprobe
  obtain ⟨mem, after, hdel, hlayout, hbalanced, hsorted, hperm, hgone⟩ :=
    htree.detach (htree.same.mem_iff.mp hnode)
  have hsame : hmap.nodes.Perm (inorder after) :=
    (hnodes.symm.trans (htree.same.trans hperm)).cons_inv
  have hne : ∀ p ∈ hmap.nodes, p ≠ node := by
    rintro p hp rfl
    exact hgone (hsame.mem_iff.mp hp)
  have hother : ∀ p, p ≠ node → (znodeDel { zset with
      tree := mem, hmap := hmap, root := rootLabel after } node).node p =
        zset.node p := fun p hp => ZSet.setNode_other _ _ hp
  have hafter : ∀ p ∈ inorder after, p ≠ node ∧ p ∈ inorder tree := by
    intro p hp
    exact ⟨fun heq => hgone (heq ▸ hp),
      hperm.mem_iff.mpr (List.mem_cons_of_mem _ hp)⟩
  refine ⟨znodeDel { zset with
      tree := mem, hmap := hmap, root := rootLabel after } node, ?_,
    h.remove ⟨?_, rfl, hbalanced, ?_, ?_, hsame, ?_, ?_⟩ hnodes
      fun p hp => hother p (hne p hp)⟩
  · simp only [zsetDelete, hdelete, hdel, Option.bind_eq_bind, Option.bind_some,
      Option.isNone_some, Bool.false_eq_true, if_false]
  · apply hlayout.congr
    intro p hp
    exact AVLMem.write_other _ _ (hafter p hp).1
  · apply hsorted.imp_of_mem
    intro first second hfirst hsecond hlt
    rw [ZSet.rank, hother first (hafter first hfirst).1, ZSet.rank,
      hother second (hafter second hsecond).1]
    exact hlt
  · apply hindex.congr
    · intro p hp
      rw [ZSet.hcode, hother p (hne p hp), ZSet.hcode]
    · intro p hp
      rw [hother p (hne p hp)]
  · intro p hp
    rw [hother p (hafter p hp).1]
    exact htree.numbers p (hafter p hp).2
  · intro p hp
    exact htree.bound p (hafter p hp).2

end MiniRedis.Ds
