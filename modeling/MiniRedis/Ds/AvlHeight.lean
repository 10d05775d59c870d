import MiniRedis.Ds.AvlChecked
import Mathlib.Tactic.NormNum.NatFib

namespace MiniRedis.Ds

open MiniRedis.Data

/-! How tall a tree of a caller that links and deletes nodes can get. -/

inductive AvlBuilt : AvlState → Prop
  | empty (mem : AVLMem) : AvlBuilt ⟨mem, none, []⟩
  | step {state : AvlState} {op : AvlOp} {mem : AVLMem} {root : Option Ptr} :
      AvlBuilt state → op.Placed state → op.run state = some (mem, root) →
      AvlBuilt ⟨mem, root, op.splice state.nodes⟩

theorem AvlBuilt.laid {state : AvlState} (h : AvlBuilt state) :
    ∃ tree, Laid state tree := by
  induction h with
  | empty mem => exact ⟨.nil, trivial, rfl, rfl, by simp [inorder], trivial⟩
  | step _ hplaced hrun ih =>
      obtain ⟨tree, htree⟩ := ih
      obtain ⟨mem', root', after, hrun', hafter⟩ := htree.run hplaced
      rw [hrun] at hrun'
      cases hrun'
      exact ⟨after, hafter⟩

theorem AvlReachable.built {state : AvlState} (h : AvlReachable state) :
    AvlBuilt state := by
  induction h with
  | empty mem => exact .empty mem
  | step _ hallowed hrun ih => exact .step ih hallowed.placed hrun

theorem Laid.avlHeight_root {state : AvlState} {tree : BinaryTree Ptr}
    (h : Laid state tree) : avlHeight state.mem state.root = tree.height := by
  rw [h.root, h.layout.avlHeight_eq]

theorem Laid.fib_le {state : AvlState} {tree : BinaryTree Ptr}
    (h : Laid state tree) :
    Nat.fib (tree.height + 2) ≤ state.nodes.length + 1 := by
  rw [h.nodes, length_inorder]
  exact h.balanced.fib_le

theorem Laid.height_le {state : AvlState} {tree : BinaryTree Ptr}
    (h : Laid state tree) {limit : Nat}
    (hlength : state.nodes.length + 1 < Nat.fib (limit + 3)) :
    tree.height ≤ limit := by
  by_contra htall
  have hmono : Nat.fib (limit + 3) ≤ Nat.fib (tree.height + 2) :=
    Nat.fib_mono (by omega)
  have hfib := h.fib_le
  omega

/-- The stored height is logarithmic in the number of nodes, so that no sum
over heights wraps, in any pass over any tree with fewer nodes than there are
addresses. -/
theorem avl_height_log {state : AvlState} (h : AvlBuilt state) :
    Nat.fib (avlHeight state.mem state.root + 2) - 1 ≤ state.nodes.length ∧
    (state.nodes.length < 2 ^ 32 →
      avlHeight state.mem state.root ≤ 45 ∧
      ∀ p ∈ state.nodes, (state.mem p).height ≤ 45) ∧
    (state.nodes.length < 2 ^ 64 → ∀ op : AvlOp, op.Placed state →
      op.runChecked state = op.run state ∧ (op.run state).isSome) := by
  obtain ⟨tree, htree⟩ := h.laid
  rw [htree.avlHeight_root]
  refine ⟨?_, ?_, ?_⟩
  · exact Nat.sub_le_iff_le_add.mpr htree.fib_le
  · intro hlength
    have hfib : 2 ^ 32 < Nat.fib (45 + 3) := by norm_num
    have hheight : tree.height ≤ 45 := htree.height_le (by omega)
    refine ⟨hheight, fun p hp => ?_⟩
    rw [htree.nodes] at hp
    exact (htree.layout.within.height p hp).trans hheight
  · intro hlength op hplaced
    have hfib : 2 ^ 64 < Nat.fib (91 + 3) := by norm_num
    have hheight : tree.height ≤ 91 := htree.height_le (by omega)
    refine ⟨htree.runChecked hplaced (by omega), ?_⟩
    obtain ⟨mem, root, _, hrun, _⟩ := htree.run hplaced
    simp [hrun]

theorem avl_height_log_three : ∃ mem, AvlBuilt ⟨mem, some 2, [1, 2, 3]⟩ ∧
    avlHeight mem (some 2) = 2 ∧ Nat.fib (avlHeight mem (some 2) + 2) - 1 ≤ 3 ∧
    (∀ p ∈ [1, 2, 3], (mem p).height ≤ 45) ∧
    (AvlOp.del 2).runChecked ⟨mem, some 2, [1, 2, 3]⟩ =
      (AvlOp.del 2).run ⟨mem, some 2, [1, 2, 3]⟩ := by
  obtain ⟨mem, hreach, hheight⟩ := exists_threeNodes
  obtain ⟨hfib, hshort, hchecked⟩ := avl_height_log hreach.built
  exact ⟨mem, hreach.built, hheight, hfib, (hshort (by simp)).2,
    (hchecked (by simp) (.del 2) (by simp [AvlOp.Placed])).1⟩

end MiniRedis.Ds
