import MiniRedis.Data.TreeContext
import Mathlib.Data.Nat.Fib.Basic

namespace MiniRedis.Data

variable {α : Type}

/-! Height-balanced trees and the rebalancing pass up a context. -/

def HeightBalanced : BinaryTree α → Prop
  | .nil => True
  | .node _ left right =>
      left.height ≤ right.height + 1 ∧ right.height ≤ left.height + 1 ∧
        HeightBalanced left ∧ HeightBalanced right

def splitSide (side : Side) :
    BinaryTree α → Option (α × BinaryTree α × BinaryTree α)
  | .nil => none
  | .node label left right =>
      match side with
      | .left => some (label, left, right)
      | .right => some (label, right, left)

/-- Rebalance a node whose subtree `heavy` on `side` is two levels taller: one
rotation towards the other side, after one that straightens `heavy` when its
inner subtree is the taller one. -/
def fixSide (side : Side) (label : α) (heavy light : BinaryTree α) :
    BinaryTree α :=
  match splitSide side heavy with
  | none => sideNode side label heavy light
  | some (pivot, outer, inner) =>
      if outer.height < inner.height then
        match splitSide side inner with
        | none => sideNode side label heavy light
        | some (middle, below, above) =>
            sideNode side middle (sideNode side pivot outer below)
              (sideNode side label above light)
      else
        sideNode side pivot outer (sideNode side label inner light)

def rebalance (label : α) (left right : BinaryTree α) : BinaryTree α :=
  if left.height = right.height + 2 then
    fixSide .left label left right
  else if left.height + 2 = right.height then
    fixSide .right label right left
  else
    .node label left right

def Frame.refill (frame : Frame α) (tree : BinaryTree α) : BinaryTree α :=
  match frame.side with
  | .left => rebalance frame.label tree frame.sibling
  | .right => rebalance frame.label frame.sibling tree

def Context.fixUp : Context α → BinaryTree α → BinaryTree α
  | [], tree => tree
  | frame :: context, tree => fixUp context (frame.refill tree)

@[simp] theorem splitSide_sideNode (side : Side) (label : α)
    (near far : BinaryTree α) :
    splitSide side (sideNode side label near far) = some (label, near, far) := by
  cases side <;> rfl

theorem fixSide_single (side : Side) (label pivot : α)
    {outer inner : BinaryTree α} (light : BinaryTree α)
    (h : ¬ outer.height < inner.height) :
    fixSide side label (sideNode side pivot outer inner) light =
      sideNode side pivot outer (sideNode side label inner light) := by
  simp [fixSide, h]

theorem fixSide_double (side : Side) (label pivot middle : α)
    {outer below above : BinaryTree α} (light : BinaryTree α)
    (h : outer.height < (sideNode side middle below above).height) :
    fixSide side label
        (sideNode side pivot outer (sideNode side middle below above)) light =
      sideNode side middle (sideNode side pivot outer below)
        (sideNode side label above light) := by
  rw [fixSide, splitSide_sideNode]
  simp only [if_pos h, splitSide_sideNode]

theorem Frame.refill_eq (frame : Frame α) (tree : BinaryTree α) :
    frame.refill tree =
      if tree.height = frame.sibling.height + 2 then
        fixSide frame.side frame.label tree frame.sibling
      else if tree.height + 2 = frame.sibling.height then
        fixSide frame.side.flip frame.label frame.sibling tree
      else
        frame.fill tree := by
  rcases frame with ⟨side, label, sibling⟩
  cases side with
  | left => rfl
  | right =>
      simp only [Frame.refill, rebalance, Frame.fill, sideNode, Side.flip]
      by_cases htall : sibling.height = tree.height + 2
      · rw [if_pos htall, if_neg (by omega), if_pos (by omega)]
      · by_cases hshort : sibling.height + 2 = tree.height
        · rw [if_neg htall, if_pos hshort, if_pos (by omega)]
        · rw [if_neg htall, if_neg hshort, if_neg (by omega),
            if_neg (by omega)]

/-! In-order sequences. -/

theorem inorder_rotated (side : Side) (label pivot : α)
    (near middle far : BinaryTree α) :
    inorder (sideNode side pivot (sideNode side label near middle) far) =
      inorder (sideNode side label near (sideNode side pivot middle far)) := by
  cases side <;> simp [sideNode, inorder]

theorem inorder_fixSide (side : Side) (label : α)
    (heavy light : BinaryTree α) :
    inorder (fixSide side label heavy light) =
      inorder (sideNode side label heavy light) := by
  cases heavy with
  | nil => rfl
  | node pivot left right =>
      obtain ⟨outer, inner, heq⟩ := exists_sideNode side pivot left right
      rw [heq]
      by_cases hlean : outer.height < inner.height
      · cases inner with
        | nil => simp at hlean
        | node middle first second =>
            obtain ⟨below, above, hinner⟩ :=
              exists_sideNode side middle first second
            rw [hinner] at hlean ⊢
            rw [fixSide_double side label pivot middle light hlean]
            cases side <;> simp [sideNode, inorder]
      · rw [fixSide_single side label pivot light hlean]
        cases side <;> simp [sideNode, inorder]

theorem inorder_rebalance (label : α) (left right : BinaryTree α) :
    inorder (rebalance label left right) =
      inorder left ++ label :: inorder right := by
  unfold rebalance
  split
  · exact inorder_fixSide .left label left right
  · split
    · exact inorder_fixSide .right label right left
    · rfl

theorem Frame.inorder_refill (frame : Frame α) (tree : BinaryTree α) :
    inorder (frame.refill tree) =
      frame.before ++ inorder tree ++ frame.after := by
  rcases frame with ⟨side, label, sibling⟩
  cases side <;>
    simp [Frame.refill, Frame.before, Frame.after, inorder_rebalance]

theorem Context.inorder_fixUp (context : Context α) (tree : BinaryTree α) :
    inorder (context.fixUp tree) =
      context.before ++ inorder tree ++ context.after := by
  induction context generalizing tree with
  | nil => simp [fixUp, before, after]
  | cons frame context ih =>
      simp [fixUp, ih, before, after, Frame.inorder_refill]

/-! A balanced tree of a given height has no fewer nodes than the sparsest
one, which the Fibonacci numbers count. -/

theorem HeightBalanced.fib_le {tree : BinaryTree α}
    (h : HeightBalanced tree) :
    Nat.fib (tree.height + 2) ≤ tree.numNodes + 1 := by
  induction tree with
  | nil => rfl
  | node label left right ihLeft ihRight =>
      obtain ⟨hleft, hright, hbleft, hbright⟩ := h
      have hfirst := ihLeft hbleft
      have hsecond := ihRight hbright
      have hgrow : Nat.fib (max left.height right.height + 3) ≤
          Nat.fib (left.height + 2) + Nat.fib (right.height + 2) := by
        rw [Nat.fib_add_two]
        rcases Nat.le_total left.height right.height with hle | hle
        · rw [max_eq_right hle]
          exact Nat.add_le_add_right (Nat.fib_mono (by omega)) _
        · rw [max_eq_left hle, Nat.add_comm]
          exact Nat.add_le_add_left (Nat.fib_mono (by omega)) _
      simp only [BinaryTree.height, BinaryTree.numNodes]
      rw [show max left.height right.height + 1 + 2 =
        max left.height right.height + 3 by omega]
      omega

/-! Balance.  A rotation absorbs a difference of two and costs at most one
level. -/

theorem balanced_sideNode (side : Side) (label : α) {near far : BinaryTree α} :
    HeightBalanced (sideNode side label near far) ↔
      near.height ≤ far.height + 1 ∧ far.height ≤ near.height + 1 ∧
        HeightBalanced near ∧ HeightBalanced far := by
  cases side with
  | left => exact Iff.rfl
  | right =>
      constructor
      · rintro ⟨hfar, hnear, hbfar, hbnear⟩
        exact ⟨hnear, hfar, hbnear, hbfar⟩
      · rintro ⟨hnear, hfar, hbnear, hbfar⟩
        exact ⟨hfar, hnear, hbfar, hbnear⟩

theorem balanced_fixSide (side : Side) (label : α)
    {heavy light : BinaryTree α} (hheavy : HeightBalanced heavy)
    (hlight : HeightBalanced light) (hheight : heavy.height = light.height + 2) :
    HeightBalanced (fixSide side label heavy light) ∧
      heavy.height ≤ (fixSide side label heavy light).height ∧
      (fixSide side label heavy light).height ≤ heavy.height + 1 := by
  cases heavy with
  | nil => simp at hheight
  | node pivot left right =>
      obtain ⟨outer, inner, heq⟩ := exists_sideNode side pivot left right
      rw [heq] at hheavy hheight ⊢
      obtain ⟨houter, hinner, hbouter, hbinner⟩ :=
        (balanced_sideNode side pivot).mp hheavy
      by_cases hlean : outer.height < inner.height
      · cases inner with
        | nil => simp at hlean
        | node middle first second =>
            obtain ⟨below, above, heqInner⟩ :=
              exists_sideNode side middle first second
            rw [heqInner] at hlean hinner houter hbinner hheight ⊢
            obtain ⟨hbelow, habove, hbbelow, hbabove⟩ :=
              (balanced_sideNode side middle).mp hbinner
            rw [fixSide_double side label pivot middle light hlean]
            simp only [height_sideNode] at hheight hlean hinner houter ⊢
            simp only [balanced_sideNode, height_sideNode]
            refine ⟨⟨?_, ?_, ⟨?_, ?_, hbouter, hbbelow⟩, ?_, ?_, hbabove,
              hlight⟩, ?_, ?_⟩ <;> omega
      · rw [fixSide_single side label pivot light hlean]
        simp only [height_sideNode] at hheight ⊢
        simp only [balanced_sideNode, height_sideNode]
        refine ⟨⟨?_, ?_, hbouter, ?_, ?_, hbinner, hlight⟩, ?_, ?_⟩ <;> omega

def Near (first second : BinaryTree α) : Prop :=
  first.height ≤ second.height + 1 ∧ second.height ≤ first.height + 1

theorem Frame.balanced_refill {frame : Frame α} {old new : BinaryTree α}
    (hnew : HeightBalanced new) (hold : HeightBalanced (frame.fill old))
    (hnear : Near new old) :
    HeightBalanced (frame.refill new) ∧
      Near (frame.refill new) (frame.fill old) := by
  obtain ⟨hleft, hright, _, hsibling⟩ :=
    (balanced_sideNode frame.side frame.label).mp hold
  obtain ⟨hup, hdown⟩ := hnear
  rw [Frame.refill_eq]
  by_cases htall : new.height = frame.sibling.height + 2
  · obtain ⟨hbalanced, hlow, hhigh⟩ :=
      balanced_fixSide frame.side frame.label hnew hsibling htall
    rw [if_pos htall]
    refine ⟨hbalanced, ?_, ?_⟩ <;>
      simp only [Frame.fill, height_sideNode] <;> omega
  · by_cases hshort : new.height + 2 = frame.sibling.height
    · obtain ⟨hbalanced, hlow, hhigh⟩ :=
        balanced_fixSide frame.side.flip frame.label hsibling hnew hshort.symm
      rw [if_neg htall, if_pos hshort]
      refine ⟨hbalanced, ?_, ?_⟩ <;>
        simp only [Frame.fill, height_sideNode] <;> omega
    · rw [if_neg htall, if_neg hshort]
      refine ⟨(balanced_sideNode frame.side frame.label).mpr
        ⟨by omega, by omega, hnew, hsibling⟩, ?_, ?_⟩ <;>
        simp only [Frame.fill, height_sideNode] <;> omega

theorem Context.balanced_of_plug (context : Context α)
    {tree : BinaryTree α} (h : HeightBalanced (context.plug tree)) :
    HeightBalanced tree := by
  induction context generalizing tree with
  | nil => exact h
  | cons frame context ih =>
      exact ((balanced_sideNode frame.side frame.label).mp (ih h)).2.2.1

/-- Replacing a subtree by one of nearly the same height and rebalancing up to
the root keeps the tree balanced. -/
theorem Context.balanced_fixUp (context : Context α)
    {old new : BinaryTree α} (hold : HeightBalanced (context.plug old))
    (hnew : HeightBalanced new) (hnear : Near new old) :
    HeightBalanced (context.fixUp new) := by
  induction context generalizing old new with
  | nil => exact hnew
  | cons frame context ih =>
      obtain ⟨hbalanced, hnear'⟩ :=
        Frame.balanced_refill hnew (Context.balanced_of_plug context hold) hnear
      exact ih hold hbalanced hnear'

theorem Context.balanced_plug_congr (context : Context α)
    {old new : BinaryTree α} (hold : HeightBalanced (context.plug old))
    (hnew : HeightBalanced new) (hheight : new.height = old.height) :
    HeightBalanced (context.plug new) := by
  induction context generalizing old new with
  | nil => exact hnew
  | cons frame context ih =>
      obtain ⟨hleft, hright, _, hsibling⟩ :=
        (balanced_sideNode frame.side frame.label).mp
          (Context.balanced_of_plug context hold)
      apply ih hold
      · exact (balanced_sideNode frame.side frame.label).mpr
          ⟨by omega, by omega, hnew, hsibling⟩
      · simp only [Frame.fill, height_sideNode, hheight]

end MiniRedis.Data
