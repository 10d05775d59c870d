import MiniRedis.Ds.AvlOffset
import MiniRedis.Ds.ZSetIndex

namespace MiniRedis.Ds

open MiniRedis.Data MiniRedis.Store

/-! Range queries on a sorted set, and its teardown. -/

variable {zset : ZSet} {tree : BinaryTree Ptr}

theorem seekge_eq_lowerBound {score : Double} {name : Bytes}
    {parent : Option Ptr} {fuel : Nat} (h : Layout zset.tree parent tree)
    (hfuel : tree.numNodes ≤ fuel) (found : Option Ptr) :
    seekge zset score name fuel found (rootLabel tree) =
      some (lowerBound (fun p => zlessKey (zset.node p) score name) tree
        found) := by
  induction tree generalizing parent fuel found with
  | nil => cases fuel <;> rfl
  | node p left right ihLeft ihRight =>
      obtain ⟨hcell, hleft, hright⟩ := h
      rw [BinaryTree.numNodes] at hfuel
      obtain ⟨fuel, rfl⟩ : ∃ rest, fuel = rest + 1 := ⟨fuel - 1, by omega⟩
      rw [rootLabel, seekge, lowerBound, hcell]
      split
      · exact ihRight hright (by omega) found
      · exact ihLeft hleft (by omega) (some p)

theorem zsetSeekge_spec (h : zset.Inv tree) {score : Double}
    (hscore : score.isNaN = false) (name : Bytes) :
    zsetSeekge zset score name = some ((inorder tree).find? fun p =>
      !zlessKey (zset.node p) score name) := by
  have hsplits : Splits (fun p => !zlessKey (zset.node p) score name)
      (inorder tree) := by
    apply List.Pairwise.imp_of_mem _ h.sorted
    intro first second hfirst hsecond hlt hge
    simp only [Bool.not_eq_true', ← Bool.not_eq_true] at hge ⊢
    rw [zlessKey_iff (h.numbers first hfirst) hscore, not_lt] at hge
    rw [zlessKey_iff (h.numbers second hsecond) hscore, not_lt]
    exact le_of_lt (lt_of_le_of_lt hge hlt)
  rw [zsetSeekge, h.root, seekge_eq_lowerBound h.layout h.numNodes_le,
    lowerBound_eq hsplits, Option.or_none]

theorem znodeOffset_spec (h : zset.Inv tree) (hsize : tree.numNodes < 2 ^ 32)
    {node : Ptr} {start : Nat} (hstart : (inorder tree)[start]? = some node)
    (offset : Int) :
    znodeOffset zset (some node) offset =
      some (nth (inorder tree) (start + offset)) := by
  have hbound := h.numNodes_le
  have hpasses : 2 * tree.numNodes < 2 * zset.alloc + 1 := by omega
  exact avlOffset_spec h.layout h.sorted.nodup hsize hstart offset hpasses

/-- The teardown visits the nodes of the tree and no others. -/
theorem treeDispose_spec (zset : ZSet) {parent : Option Ptr} {fuel : Nat}
    (h : Layout zset.tree parent tree) (hnodup : (inorder tree).Nodup)
    (hfuel : tree.numNodes ≤ fuel) :
    ∃ zset', treeDispose fuel zset (rootLabel tree) = some zset' ∧
      ∀ p, p ∉ inorder tree → zset'.tree p = zset.tree p := by
  induction tree generalizing parent fuel zset with
  | nil => exact ⟨zset, by cases fuel <;> rfl, fun _ _ => rfl⟩
  | node p left right ihLeft ihRight =>
      obtain ⟨hcell, hleft, hright⟩ := h
      rw [inorder, List.nodup_append] at hnodup
      obtain ⟨hnodupLeft, hnodupRight, hcross⟩ := hnodup
      obtain ⟨hroot, hnodupRight⟩ := List.nodup_cons.mp hnodupRight
      have hrootLeft : p ∉ inorder left := fun hmem =>
        hcross p hmem p List.mem_cons_self rfl
      rw [BinaryTree.numNodes] at hfuel
      obtain ⟨fuel, rfl⟩ : ∃ rest, fuel = rest + 1 := ⟨fuel - 1, by omega⟩
      obtain ⟨first, hfirst, houtFirst⟩ :=
        ihLeft zset hleft hnodupLeft (show left.numNodes ≤ fuel by omega)
      have hkept : Layout first.tree (some p) right := by
        apply hright.congr
        intro q hq
        apply houtFirst
        intro hqLeft
        exact hcross q hqLeft q (List.mem_cons_of_mem _ hq) rfl
      obtain ⟨second, hsecond, houtSecond⟩ :=
        ihRight first hkept hnodupRight (show right.numNodes ≤ fuel by omega)
      refine ⟨znodeDel second p, ?_, ?_⟩
      · have hroot : (first.tree p).right = rootLabel right := by
          rw [houtFirst p hrootLeft, hcell, nodeCell]
        have hstart : (zset.tree p).left = rootLabel left := by
          rw [hcell, nodeCell]
        rw [show rootLabel (.node p left right) = some p from rfl]
        simp [treeDispose, hstart, hfirst, hroot, hsecond]
      · intro q hq
        simp only [inorder, List.mem_append, List.mem_cons, not_or] at hq
        obtain ⟨hqLeft, hqRoot, hqRight⟩ := hq
        have hwrite : (znodeDel second p).tree q = second.tree q := by
          simp [znodeDel, ZSet.setNode, AVLMem.write, hqRoot]
        rw [hwrite, houtSecond q hqRight, houtFirst q hqLeft]

theorem zsetClear_spec (h : zset.Inv tree) :
    ∃ zset', zsetClear zset = some zset' := by
  obtain ⟨zset', hdispose, _⟩ := treeDispose_spec
    { zset with hmap := hmClear zset.hmap } h.layout h.sorted.nodup
    h.numNodes_le
  rw [← h.root] at hdispose
  exact ⟨{ zset' with root := none }, by simp [zsetClear, hdispose]⟩

end MiniRedis.Ds
