import Mathlib.Data.Tree.Basic
import Mathlib.Data.List.Nodup
import Mathlib.Tactic.Tauto

namespace MiniRedis.Data

/-! Binary trees with a hole.  A context lists the frames from the hole up to
the root. -/

inductive Side
  | left
  | right
deriving DecidableEq, Repr

def Side.flip : Side → Side
  | .left => .right
  | .right => .left

@[simp] theorem Side.flip_flip (side : Side) : side.flip.flip = side := by
  cases side <;> rfl

def sideNode (side : Side) (label : α) (near far : BinaryTree α) :
    BinaryTree α :=
  match side with
  | .left => .node label near far
  | .right => .node label far near

structure Frame (α : Type) where
  side : Side
  label : α
  sibling : BinaryTree α

abbrev Context (α : Type) := List (Frame α)

variable {α : Type}

def inorder : BinaryTree α → List α
  | .nil => []
  | .node label left right => inorder left ++ label :: inorder right

def rootLabel : BinaryTree α → Option α
  | .nil => none
  | .node label _ _ => some label

@[simp] theorem rootLabel_sideNode (side : Side) (label : α)
    (near far : BinaryTree α) :
    rootLabel (sideNode side label near far) = some label := by
  cases side <;> rfl

@[simp] theorem height_sideNode (side : Side) (label : α)
    (near far : BinaryTree α) :
    (sideNode side label near far).height = max near.height far.height + 1 := by
  cases side with
  | left => rfl
  | right => exact congrArg (· + 1) (Nat.max_comm far.height near.height)

theorem sideNode_flip (side : Side) (label : α) (near far : BinaryTree α) :
    sideNode side.flip label near far = sideNode side label far near := by
  cases side <;> rfl

theorem mem_inorder_sideNode {side : Side} {label other : α}
    {near far : BinaryTree α} :
    other ∈ inorder (sideNode side label near far) ↔
      other = label ∨ other ∈ inorder near ∨ other ∈ inorder far := by
  cases side <;> simp only [sideNode, inorder, List.mem_append, List.mem_cons]
  · exact or_left_comm
  · rw [or_left_comm]
    exact or_congr_right or_comm

theorem nodup_inorder_sideNode (side : Side) {label : α}
    {near far : BinaryTree α} :
    (inorder (sideNode side label near far)).Nodup ↔
      label ∉ inorder near ∧ label ∉ inorder far ∧
        (inorder near).Nodup ∧ (inorder far).Nodup ∧
        (inorder near).Disjoint (inorder far) := by
  cases side <;>
    simp only [sideNode, inorder, List.nodup_append', List.nodup_cons,
      List.disjoint_cons_right]
  · tauto
  · rw [List.disjoint_comm]
    tauto

theorem exists_sideNode (side : Side) (label : α)
    (left right : BinaryTree α) :
    ∃ near far, BinaryTree.node label left right =
      sideNode side label near far := by
  cases side with
  | left => exact ⟨left, right, rfl⟩
  | right => exact ⟨right, left, rfl⟩

namespace Frame

def fill (frame : Frame α) (tree : BinaryTree α) : BinaryTree α :=
  sideNode frame.side frame.label tree frame.sibling

def before (frame : Frame α) : List α :=
  match frame.side with
  | .left => []
  | .right => inorder frame.sibling ++ [frame.label]

def after (frame : Frame α) : List α :=
  match frame.side with
  | .left => frame.label :: inorder frame.sibling
  | .right => []

theorem inorder_fill (frame : Frame α) (tree : BinaryTree α) :
    inorder (frame.fill tree) =
      frame.before ++ inorder tree ++ frame.after := by
  rcases frame with ⟨side, label, sibling⟩
  cases side <;> simp [fill, sideNode, before, after, inorder]

end Frame

namespace Context

def plug : Context α → BinaryTree α → BinaryTree α
  | [], tree => tree
  | frame :: context, tree => plug context (frame.fill tree)

def before : Context α → List α
  | [] => []
  | frame :: context => before context ++ frame.before

def after : Context α → List α
  | [] => []
  | frame :: context => frame.after ++ after context

def labels : Context α → List α
  | [] => []
  | frame :: context =>
      frame.label :: (inorder frame.sibling ++ labels context)

def parent : Context α → Option α
  | [] => none
  | frame :: _ => some frame.label

@[simp] theorem plug_nil (tree : BinaryTree α) :
    plug ([] : Context α) tree = tree := rfl

@[simp] theorem plug_cons (frame : Frame α) (context : Context α)
    (tree : BinaryTree α) :
    plug (frame :: context) tree = plug context (frame.fill tree) := rfl

theorem plug_append (inner outer : Context α) (tree : BinaryTree α) :
    plug (inner ++ outer) tree = plug outer (plug inner tree) := by
  induction inner generalizing tree with
  | nil => rfl
  | cons frame inner ih => exact ih (frame.fill tree)

theorem inorder_plug (context : Context α) (tree : BinaryTree α) :
    inorder (plug context tree) =
      before context ++ inorder tree ++ after context := by
  induction context generalizing tree with
  | nil => simp [before, after]
  | cons frame context ih =>
      simp [ih, before, after, Frame.inorder_fill]

theorem inorder_relabel (context : Context α) {left right : BinaryTree α}
    {label : α} (other : α) {before after : List α}
    (h : inorder (plug context (.node label left right)) =
      before ++ label :: after)
    (hnodup : (inorder (plug context (.node label left right))).Nodup) :
    inorder (plug context (.node other left right)) =
      before ++ other :: after := by
  have hsplit : (context.before ++ inorder left) ++ label ::
      (inorder right ++ context.after) = before ++ label :: after := by
    rw [← h, inorder_plug]
    simp [inorder]
  have hmiddle : label ∉ context.before ++ inorder left ∧
      label ∉ inorder right ++ context.after := by
    rw [h, ← hsplit, List.nodup_middle, List.nodup_cons, List.mem_append,
      not_or] at hnodup
    exact hnodup.1
  obtain ⟨hbefore, _, hafter⟩ :=
    (List.append_cons_inj_of_notMem hmiddle.1 hmiddle.2).mp hsplit
  rw [← hbefore, ← hafter, inorder_plug]
  simp [inorder]

theorem inorder_plug_perm (context : Context α) (tree : BinaryTree α) :
    (inorder (plug context tree)).Perm (inorder tree ++ labels context) := by
  induction context generalizing tree with
  | nil => simp [labels]
  | cons frame context ih =>
      have hfill : (inorder (frame.fill tree)).Perm
          (inorder tree ++ frame.label :: inorder frame.sibling) := by
        rcases frame with ⟨side, label, sibling⟩
        cases side with
        | left => exact List.Perm.refl _
        | right =>
            calc
              (inorder sibling ++ label :: inorder tree).Perm
                  ((label :: inorder tree) ++ inorder sibling) :=
                List.perm_append_comm
              _ = label :: (inorder tree ++ inorder sibling) := rfl
              (label :: (inorder tree ++ inorder sibling)).Perm
                  (inorder tree ++ label :: inorder sibling) :=
                List.perm_middle.symm
      have hrest := (ih (frame.fill tree)).trans
        (hfill.append_right (labels context))
      simpa [labels] using hrest

end Context

theorem length_inorder (tree : BinaryTree α) :
    (inorder tree).length = tree.numNodes := by
  induction tree with
  | nil => rfl
  | node label left right ihLeft ihRight =>
      simp [inorder, ihLeft, ihRight]
      omega

theorem exists_plug_of_mem {tree : BinaryTree α} {label : α}
    (hmem : label ∈ inorder tree) :
    ∃ (context : Context α) (left right : BinaryTree α),
      tree = context.plug (.node label left right) := by
  induction tree with
  | nil => simp [inorder] at hmem
  | node root left right ihLeft ihRight =>
      simp only [inorder, List.mem_append, List.mem_cons] at hmem
      rcases hmem with hleft | rfl | hright
      · obtain ⟨context, below, above, htree⟩ := ihLeft hleft
        refine ⟨context ++ [⟨.left, root, right⟩], below, above, ?_⟩
        rw [Context.plug_append, ← htree]
        rfl
      · exact ⟨[], left, right, rfl⟩
      · obtain ⟨context, below, above, htree⟩ := ihRight hright
        refine ⟨context ++ [⟨.right, root, left⟩], below, above, ?_⟩
        rw [Context.plug_append, ← htree]
        rfl

theorem Context.length_add_numNodes_le (context : Context α)
    (tree : BinaryTree α) :
    context.length + tree.numNodes ≤ (context.plug tree).numNodes := by
  induction context generalizing tree with
  | nil => simp
  | cons frame context ih =>
      have hfill : tree.numNodes + 1 ≤ (frame.fill tree).numNodes := by
        rcases frame with ⟨side, label, sibling⟩
        cases side <;> simp [Frame.fill, sideNode]
      have hrest := ih (frame.fill tree)
      simp only [List.length_cons, Context.plug_cons]
      omega

theorem Context.length_add_height_le (context : Context α)
    (tree : BinaryTree α) :
    context.length + tree.height ≤ (context.plug tree).height := by
  induction context generalizing tree with
  | nil => simp
  | cons frame context ih =>
      have hrest := ih (frame.fill tree)
      rw [Frame.fill, height_sideNode] at hrest
      rw [plug_cons, Frame.fill, List.length_cons]
      omega

theorem Context.rootLabel_plug_congr (context : Context α)
    {first second : BinaryTree α} (h : rootLabel first = rootLabel second) :
    rootLabel (context.plug first) = rootLabel (context.plug second) := by
  induction context generalizing first second with
  | nil => exact h
  | cons frame context ih => exact ih (by simp [Frame.fill])

theorem Context.before_of_left {spine : Context α}
    (hspine : ∀ frame ∈ spine, frame.side = .left) : spine.before = [] := by
  induction spine with
  | nil => rfl
  | cons frame spine ih =>
      have hside := hspine frame (by simp)
      have hrest := ih fun other member => hspine other (by simp [member])
      simp [Context.before, Frame.before, hside, hrest]

end MiniRedis.Data
