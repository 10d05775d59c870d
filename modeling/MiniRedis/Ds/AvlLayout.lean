import MiniRedis.Data.Balance
import MiniRedis.Ds.Avl

namespace MiniRedis.Ds

open MiniRedis.Data

/-! How a memory lays out a tree of pointers. -/

def nodeCell (parent : Option Ptr) (left right : BinaryTree Ptr) : AVLNode where
  parent := parent
  left := rootLabel left
  right := rootLabel right
  height := 1 + max left.height right.height
  cnt := (1 + left.numNodes + right.numNodes) % 2 ^ 32

def Layout (mem : AVLMem) : Option Ptr → BinaryTree Ptr → Prop
  | _, .nil => True
  | parent, .node p left right =>
      mem p = nodeCell parent left right ∧
        Layout mem (some p) left ∧ Layout mem (some p) right

/-- The links of `p` are in place; its aggregates may be stale. -/
structure NodeAt (mem : AVLMem) (parent : Option Ptr) (side : Side) (p : Ptr)
    (near far : BinaryTree Ptr) : Prop where
  parentLink : (mem p).parent = parent
  nearLink : (mem p).child side = rootLabel near
  farLink : (mem p).child side.flip = rootLabel far
  nearLayout : Layout mem (some p) near
  farLayout : Layout mem (some p) far

def ContextLayout (mem : AVLMem) : Context Ptr → Option Ptr → Prop
  | [], _ => True
  | frame :: context, hole =>
      (mem frame.label).parent = Context.parent context ∧
      (mem frame.label).child frame.side = hole ∧
      (mem frame.label).child frame.side.flip = rootLabel frame.sibling ∧
      Layout mem (some frame.label) frame.sibling ∧
      ContextLayout mem context (some frame.label)

namespace AVLNode

variable (node : AVLNode) (side : Side) (child : Option Ptr)

@[simp] theorem child_withChild :
    (node.withChild side child).child side = child := by
  cases side <;> rfl

@[simp] theorem child_flip_withChild :
    (node.withChild side child).child side.flip = node.child side.flip := by
  cases side <;> rfl

@[simp] theorem child_withChild_flip :
    (node.withChild side.flip child).child side = node.child side := by
  cases side <;> rfl

@[simp] theorem parent_withChild :
    (node.withChild side child).parent = node.parent := by
  cases side <;> rfl

@[simp] theorem child_setParent (parent : Option Ptr) :
    ({ node with parent := parent } : AVLNode).child side =
      node.child side := by
  cases side <;> rfl

end AVLNode

namespace AVLMem

variable (mem : AVLMem) (p q : Ptr)

@[simp] theorem write_self (node : AVLNode) : mem.write p node p = node := by
  simp [write]

theorem write_other {p q : Ptr} (node : AVLNode) (hne : q ≠ p) :
    mem.write p node q = mem q := by
  simp [write, hne]

theorem setParent_apply (parent : Option Ptr) :
    mem.setParent p parent q =
      if q = p then { mem q with parent := parent } else mem q := by
  by_cases heq : q = p
  · subst heq
    simp [setParent]
  · simp [setParent, write, heq]

theorem setChild_apply (side : Side) (child : Option Ptr) :
    mem.setChild p side child q =
      if q = p then (mem q).withChild side child else mem q := by
  by_cases heq : q = p
  · subst heq
    simp [setChild]
  · simp [setChild, write, heq]

theorem adopt_apply (child parent : Option Ptr) :
    mem.adopt child parent q =
      if child = some q then { mem q with parent := parent } else mem q := by
  cases child with
  | none => rfl
  | some child =>
      simp only [adopt, setParent_apply, Option.some.injEq]
      exact if_congr eq_comm rfl rfl

end AVLMem

theorem rootLabel_mem {tree : BinaryTree α} {label : α}
    (h : rootLabel tree = some label) : label ∈ inorder tree := by
  cases tree with
  | nil => simp [rootLabel] at h
  | node root left right =>
      cases h
      simp [inorder]

theorem rootLabel_ne {tree : BinaryTree α} {label : α}
    (h : label ∉ inorder tree) : rootLabel tree ≠ some label :=
  fun hroot => h (rootLabel_mem hroot)

/-! A layout only depends on the cells of its own labels. -/

theorem Layout.congr {mem mem' : AVLMem} {parent : Option Ptr}
    {tree : BinaryTree Ptr} (h : Layout mem parent tree)
    (hagree : ∀ q ∈ inorder tree, mem' q = mem q) :
    Layout mem' parent tree := by
  induction tree generalizing parent with
  | nil => trivial
  | node p left right ihLeft ihRight =>
      obtain ⟨hcell, hleft, hright⟩ := h
      refine ⟨?_, ihLeft hleft ?_, ihRight hright ?_⟩
      · rw [hagree p (by simp [inorder]), hcell]
      · intro q hq
        exact hagree q (by simp [inorder, hq])
      · intro q hq
        exact hagree q (by simp [inorder, hq])

theorem ContextLayout.congr {mem mem' : AVLMem} {context : Context Ptr}
    {hole : Option Ptr} (h : ContextLayout mem context hole)
    (hagree : ∀ q ∈ context.labels, mem' q = mem q) :
    ContextLayout mem' context hole := by
  induction context generalizing hole with
  | nil => trivial
  | cons frame context ih =>
      obtain ⟨hparent, hhole, hlink, hsibling, hrest⟩ := h
      have hcell := hagree frame.label (by simp [Context.labels])
      refine ⟨by rw [hcell, hparent], by rw [hcell, hhole],
        by rw [hcell, hlink], hsibling.congr ?_, ih hrest ?_⟩
      · intro q hq
        exact hagree q (by simp [Context.labels, hq])
      · intro q hq
        exact hagree q (by simp [Context.labels, hq])

theorem ContextLayout.rehole {mem mem' : AVLMem} {frame : Frame Ptr}
    {context : Context Ptr} {hole hole' : Option Ptr}
    (h : ContextLayout mem (frame :: context) hole)
    (hframe : mem' frame.label =
      (mem frame.label).withChild frame.side hole')
    (hsibling : ∀ q ∈ inorder frame.sibling, mem' q = mem q)
    (hcontext : ∀ q ∈ Context.labels context, mem' q = mem q) :
    ContextLayout mem' (frame :: context) hole' := by
  obtain ⟨hparent, _, hlink, hlayout, hrest⟩ := h
  exact ⟨by rw [hframe, AVLNode.parent_withChild, hparent],
    by rw [hframe, AVLNode.child_withChild],
    by rw [hframe, AVLNode.child_flip_withChild, hlink],
    hlayout.congr hsibling, hrest.congr hcontext⟩

theorem Layout.nodeAt {mem : AVLMem} {parent : Option Ptr} {side : Side}
    {p : Ptr} {near far : BinaryTree Ptr}
    (h : Layout mem parent (sideNode side p near far)) :
    NodeAt mem parent side p near far := by
  cases side with
  | left =>
      obtain ⟨hcell, hnear, hfar⟩ := h
      exact ⟨by rw [hcell]; rfl, by rw [hcell]; rfl, by rw [hcell]; rfl,
        hnear, hfar⟩
  | right =>
      obtain ⟨hcell, hfar, hnear⟩ := h
      exact ⟨by rw [hcell]; rfl, by rw [hcell]; rfl, by rw [hcell]; rfl,
        hnear, hfar⟩

theorem NodeAt.flip {mem : AVLMem} {parent : Option Ptr} {side : Side}
    {p : Ptr} {near far : BinaryTree Ptr}
    (h : NodeAt mem parent side p near far) :
    NodeAt mem parent side.flip p far near :=
  ⟨h.parentLink, h.farLink, by rw [Side.flip_flip]; exact h.nearLink,
    h.farLayout, h.nearLayout⟩

theorem Layout.avlHeight_eq {mem : AVLMem} {parent : Option Ptr}
    {tree : BinaryTree Ptr} (h : Layout mem parent tree) :
    avlHeight mem (rootLabel tree) = tree.height := by
  cases tree with
  | nil => rfl
  | node p left right =>
      simp only [rootLabel, avlHeight, h.1, nodeCell, BinaryTree.height]
      omega

theorem Layout.avlCnt_eq {mem : AVLMem} {parent : Option Ptr}
    {tree : BinaryTree Ptr} (h : Layout mem parent tree) :
    avlCnt mem (rootLabel tree) = tree.numNodes % 2 ^ 32 := by
  cases tree with
  | nil => rfl
  | node p left right =>
      simp only [rootLabel, avlCnt, h.1, nodeCell, BinaryTree.numNodes]
      congr 1
      omega

@[simp] theorem avlUpdateFit_some (mem : AVLMem) (p : Ptr) :
    avlUpdateFit some mem p = some (avlUpdate mem p) := rfl

theorem avlUpdate_other (mem : AVLMem) {p q : Ptr} (hne : q ≠ p) :
    avlUpdate mem p q = mem q :=
  AVLMem.write_other mem _ hne

theorem NodeAt.update_cell {mem : AVLMem} {parent : Option Ptr} {p : Ptr}
    {left right : BinaryTree Ptr} (h : NodeAt mem parent .left p left right) :
    avlUpdate mem p p = nodeCell parent left right := by
  have hleft : (mem p).left = rootLabel left := h.nearLink
  have hright : (mem p).right = rootLabel right := h.farLink
  simp only [avlUpdate, AVLMem.aggregate, avlHeightSum, AVLMem.write_self, hleft, hright,
    h.nearLayout.avlHeight_eq, h.farLayout.avlHeight_eq,
    h.nearLayout.avlCnt_eq, h.farLayout.avlCnt_eq, h.parentLink, nodeCell]
  congr 1
  omega

/-- `avl_update` makes the aggregates of a node with well laid out children
exact. -/
theorem NodeAt.update {mem : AVLMem} {parent : Option Ptr} {side : Side}
    {p : Ptr} {near far : BinaryTree Ptr}
    (h : NodeAt mem parent side p near far)
    (hnear : p ∉ inorder near) (hfar : p ∉ inorder far) :
    Layout (avlUpdate mem p) parent (sideNode side p near far) := by
  have hnear' : Layout (avlUpdate mem p) (some p) near :=
    h.nearLayout.congr fun q hq =>
      avlUpdate_other mem fun heq => hnear (heq ▸ hq)
  have hfar' : Layout (avlUpdate mem p) (some p) far :=
    h.farLayout.congr fun q hq =>
      avlUpdate_other mem fun heq => hfar (heq ▸ hq)
  cases side with
  | left => exact ⟨h.update_cell, hnear', hfar'⟩
  | right => exact ⟨h.flip.update_cell, hfar', hnear'⟩

/-- Giving a subtree a new parent rewrites the cell of its root only. -/
theorem Layout.adopt {mem : AVLMem} {parent : Option Ptr}
    {tree : BinaryTree Ptr} (h : Layout mem parent tree)
    (hnodup : (inorder tree).Nodup) (parent' : Option Ptr) :
    Layout (mem.adopt (rootLabel tree) parent') parent' tree := by
  cases tree with
  | nil => trivial
  | node p left right =>
      obtain ⟨hcell, hleft, hright⟩ := h
      obtain ⟨hpleft, hpright, _⟩ :=
        (nodup_inorder_sideNode .left).mp hnodup
      refine ⟨?_, hleft.congr ?_, hright.congr ?_⟩
      · simp [rootLabel, AVLMem.adopt_apply, hcell, nodeCell]
      · intro q hq
        rw [AVLMem.adopt_apply, if_neg]
        intro heq
        cases heq
        exact hpleft hq
      · intro q hq
        rw [AVLMem.adopt_apply, if_neg]
        intro heq
        cases heq
        exact hpright hq

end MiniRedis.Ds
