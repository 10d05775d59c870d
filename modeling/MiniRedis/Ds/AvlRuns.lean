import MiniRedis.Ds.AvlDel

namespace MiniRedis.Ds

open MiniRedis.Data

/-! Whole runs of a caller that links and deletes nodes. -/

inductive InorderOf (mem : AVLMem) : Option Ptr → List Ptr → Prop
  | null : InorderOf mem none []
  | node {p : Ptr} {before after : List Ptr} :
      InorderOf mem (mem p).left before → InorderOf mem (mem p).right after →
      InorderOf mem (some p) (before ++ p :: after)

/-- The structural invariant of the tree below `root`, whose nodes in order
are `nodes`. -/
structure AvlWellFormed (mem : AVLMem) (root : Option Ptr)
    (nodes : List Ptr) : Prop where
  order : InorderOf mem root nodes
  distinct : nodes.Nodup
  rootNull : root = none ↔ nodes = []
  rootParent : ∀ p, root = some p → (mem p).parent = none
  childParent : ∀ p ∈ nodes, ∀ side c, (mem p).child side = some c →
    (mem c).parent = some p
  height : ∀ p ∈ nodes, (mem p).height =
    1 + max (avlHeight mem (mem p).left) (avlHeight mem (mem p).right)
  heightFits : ∀ p ∈ nodes, (mem p).height < 2 ^ 32
  cnt : ∀ p ∈ nodes, (mem p).cnt =
    1 + avlCnt mem (mem p).left + avlCnt mem (mem p).right
  balance : ∀ p ∈ nodes,
    avlHeight mem (mem p).left ≤ avlHeight mem (mem p).right + 1 ∧
    avlHeight mem (mem p).right ≤ avlHeight mem (mem p).left + 1

/-- `nodes` is what a caller that tracks every splice and removal expects. -/
structure AvlState where
  mem : AVLMem
  root : Option Ptr
  nodes : List Ptr

inductive AvlOp
  | link (hole : Option (Ptr × Side)) (p : Ptr)
  | del (p : Ptr)

def AvlOp.Allowed (state : AvlState) : AvlOp → Prop
  | .link hole p =>
      p ∉ state.nodes ∧ state.nodes.length + 1 < 2 ^ 32 ∧
        match hole with
        | none => state.root = none
        | some (q, side) =>
            q ∈ state.nodes ∧ (state.mem q).child side = none
  | .del p => p ∈ state.nodes

/-- The code's part of an operation; no pointer walk takes more passes than
there are nodes. -/
def AvlOp.run (state : AvlState) (op : AvlOp) (fit : Nat → Option Nat := some) :
    Option (AVLMem × Option Ptr) :=
  match op with
  | .link hole p => do
      let (mem, root) ← avlFix (state.nodes.length + 1)
        ((state.mem.write p avlInit).link hole p) p fit
      some (mem, some root)
  | .del p => avlDel state.nodes.length state.mem p fit

/-- The in-order sequence an operation should leave: a left link hangs the new
node just before its parent, a right link just after. -/
def AvlOp.splice (nodes : List Ptr) : AvlOp → List Ptr
  | .link none p => [p]
  | .link (some (q, .left)) p =>
      nodes.flatMap fun x => if x = q then [p, q] else [x]
  | .link (some (q, .right)) p =>
      nodes.flatMap fun x => if x = q then [q, p] else [x]
  | .del p => nodes.erase p

inductive AvlReachable : AvlState → Prop
  | empty (mem : AVLMem) : AvlReachable ⟨mem, none, []⟩
  | step {state : AvlState} {op : AvlOp} {mem : AVLMem} {root : Option Ptr} :
      AvlReachable state → op.Allowed state →
      op.run state = some (mem, root) →
      AvlReachable ⟨mem, root, op.splice state.nodes⟩

structure Shape (state : AvlState) (tree : BinaryTree Ptr) : Prop where
  layout : Layout state.mem none tree
  root : state.root = rootLabel tree
  nodes : state.nodes = inorder tree
  distinct : (inorder tree).Nodup
  balanced : HeightBalanced tree
  bound : tree.numNodes < 2 ^ 32

structure Laid (state : AvlState) (tree : BinaryTree Ptr) : Prop where
  layout : Layout state.mem none tree
  root : state.root = rootLabel tree
  nodes : state.nodes = inorder tree
  distinct : (inorder tree).Nodup
  balanced : HeightBalanced tree

theorem Shape.laid {state : AvlState} {tree : BinaryTree Ptr}
    (h : Shape state tree) : Laid state tree :=
  ⟨h.layout, h.root, h.nodes, h.distinct, h.balanced⟩

def AvlOp.Placed (state : AvlState) : AvlOp → Prop
  | .link hole p =>
      p ∉ state.nodes ∧
        match hole with
        | none => state.root = none
        | some (q, side) =>
            q ∈ state.nodes ∧ (state.mem q).child side = none
  | .del p => p ∈ state.nodes

theorem AvlOp.Allowed.placed {state : AvlState} {op : AvlOp}
    (h : op.Allowed state) : op.Placed state := by
  cases op with
  | link hole p => exact ⟨h.1, h.2.2⟩
  | del p => exact h

theorem Layout.inorderOf {mem : AVLMem} {parent : Option Ptr}
    {tree : BinaryTree Ptr} (h : Layout mem parent tree) :
    InorderOf mem (rootLabel tree) (inorder tree) := by
  induction tree generalizing parent with
  | nil => exact .null
  | node p left right ihLeft ihRight =>
      obtain ⟨hcell, hleft, hright⟩ := h
      have hbefore := ihLeft hleft
      have hafter := ihRight hright
      apply InorderOf.node
      · rwa [hcell]
      · rwa [hcell]

theorem Layout.parent_root {mem : AVLMem} {parent : Option Ptr} {p : Ptr}
    {tree : BinaryTree Ptr} (h : Layout mem parent tree)
    (hroot : rootLabel tree = some p) : (mem p).parent = parent := by
  cases tree with
  | nil => cases hroot
  | node _ left right =>
      cases hroot
      rw [h.1]
      rfl

theorem Shape.nodeAt {state : AvlState} {tree : BinaryTree Ptr} {p : Ptr}
    (h : Shape state tree) (hp : p ∈ state.nodes) :
    ∃ (parent : Option Ptr) (left right : BinaryTree Ptr),
      NodeAt state.mem parent .left p left right ∧
      state.mem p = nodeCell parent left right ∧
      HeightBalanced (.node p left right) ∧
      (BinaryTree.node p left right).numNodes < 2 ^ 32 := by
  rw [h.nodes] at hp
  obtain ⟨context, left, right, htree⟩ := exists_plug_of_mem hp
  have hlayout := h.layout
  have hbalanced := h.balanced
  have hbound := h.bound
  rw [htree] at hlayout hbalanced hbound
  have hnode := (Layout.frames context hlayout).1
  have hsize := context.length_add_numNodes_le (.node p left right)
  exact ⟨context.parent, left, right, Layout.nodeAt hnode, hnode.1,
    context.balanced_of_plug hbalanced, by omega⟩

theorem Shape.wellFormed {state : AvlState} {tree : BinaryTree Ptr}
    (h : Shape state tree) :
    AvlWellFormed state.mem state.root state.nodes := by
  refine ⟨?_, ?_, ?_, ?_, ?_, ?_, ?_, ?_, ?_⟩
  · rw [h.root, h.nodes]
    exact h.layout.inorderOf
  · rw [h.nodes]
    exact h.distinct
  · rw [h.root, h.nodes]
    cases tree <;> simp [rootLabel, inorder]
  · intro p hroot
    rw [h.root] at hroot
    exact h.layout.parent_root hroot
  · intro p hp side c hchild
    obtain ⟨parent, left, right, hnode, _⟩ := h.nodeAt hp
    cases side with
    | left =>
        exact hnode.nearLayout.parent_root (hnode.nearLink.symm.trans hchild)
    | right =>
        exact hnode.farLayout.parent_root (hnode.farLink.symm.trans hchild)
  · intro p hp
    obtain ⟨parent, left, right, hnode, hcell, _⟩ := h.nodeAt hp
    rw [hcell]
    simp only [nodeCell, hnode.nearLayout.avlHeight_eq,
      hnode.farLayout.avlHeight_eq]
  · intro p hp
    obtain ⟨parent, left, right, _, hcell, _, hbound⟩ := h.nodeAt hp
    have hheight := (BinaryTree.node p left right).height_le_numNodes
    rw [hcell]
    simp only [nodeCell, BinaryTree.height] at hheight ⊢
    omega
  · intro p hp
    obtain ⟨parent, left, right, hnode, hcell, _, hbound⟩ := h.nodeAt hp
    simp only [BinaryTree.numNodes] at hbound
    rw [hcell]
    simp only [nodeCell, hnode.nearLayout.avlCnt_eq, hnode.farLayout.avlCnt_eq]
    rw [Nat.mod_eq_of_lt (by omega), Nat.mod_eq_of_lt (by omega),
      Nat.mod_eq_of_lt (by omega)]
  · intro p hp
    obtain ⟨parent, left, right, hnode, hcell, hbalanced, _⟩ := h.nodeAt hp
    rw [hcell]
    simp only [nodeCell, hnode.nearLayout.avlHeight_eq,
      hnode.farLayout.avlHeight_eq]
    exact ⟨hbalanced.1, hbalanced.2.1⟩

theorem flatMap_middle {q : Ptr} {before after : List Ptr} (image : List Ptr)
    (hnodup : (before ++ q :: after).Nodup) :
    ((before ++ q :: after).flatMap fun x => if x = q then image else [x]) =
      before ++ image ++ after := by
  rw [List.nodup_middle, List.nodup_cons, List.mem_append, not_or] at hnodup
  obtain ⟨⟨hbefore, hafter⟩, _⟩ := hnodup
  have hkeep : ∀ nodes : List Ptr, q ∉ nodes →
      (nodes.flatMap fun x => if x = q then image else [x]) = nodes := by
    intro nodes hq
    induction nodes with
    | nil => rfl
    | cons x nodes ih =>
        simp only [List.mem_cons, not_or] at hq
        rw [List.flatMap_cons, ih hq.2, if_neg (Ne.symm hq.1)]
        rfl
  rw [List.flatMap_append, List.flatMap_cons, hkeep before hbefore,
    hkeep after hafter, if_pos rfl, List.append_assoc]

theorem Laid.hole {state : AvlState} {tree : BinaryTree Ptr}
    (h : Laid state tree) {hole : Option (Ptr × Side)} {p : Ptr}
    (hplaced : (AvlOp.link hole p).Placed state) :
    ∃ context : Context Ptr, tree = context.plug .nil ∧
      holeLink context = hole ∧
      (AvlOp.link hole p).splice state.nodes =
        context.before ++ p :: context.after := by
  obtain ⟨_, hhole⟩ := hplaced
  cases hole with
  | none =>
      rw [h.root] at hhole
      cases tree with
      | nil => exact ⟨[], rfl, rfl, rfl⟩
      | node q left right => simp [rootLabel] at hhole
  | some link =>
      obtain ⟨q, side⟩ := link
      obtain ⟨hq, hchild⟩ := hhole
      rw [h.nodes] at hq ⊢
      obtain ⟨context, left, right, rfl⟩ := exists_plug_of_mem hq
      have hdistinct := h.distinct
      obtain ⟨hcell, _⟩ := (Layout.frames context h.layout).1
      rw [hcell] at hchild
      cases side with
      | left =>
          cases left with
          | node c below above =>
              simp [nodeCell, AVLNode.child, rootLabel] at hchild
          | nil =>
              have hsplit : inorder (context.plug (.node q .nil right)) =
                  context.before ++ q :: (inorder right ++ context.after) := by
                simp [Context.inorder_plug, inorder]
              rw [hsplit] at hdistinct
              refine ⟨⟨.left, q, right⟩ :: context, rfl, rfl, ?_⟩
              rw [AvlOp.splice, hsplit, flatMap_middle _ hdistinct]
              simp [Context.before, Context.after, Frame.before, Frame.after]
      | right =>
          cases right with
          | node c below above =>
              simp [nodeCell, AVLNode.child, rootLabel] at hchild
          | nil =>
              have hsplit : inorder (context.plug (.node q left .nil)) =
                  (context.before ++ inorder left) ++ q :: context.after := by
                simp [Context.inorder_plug, inorder]
              rw [hsplit] at hdistinct
              refine ⟨⟨.right, q, left⟩ :: context, rfl, rfl, ?_⟩
              rw [AvlOp.splice, hsplit, flatMap_middle _ hdistinct]
              simp [Context.before, Context.after, Frame.before, Frame.after]

theorem Laid.write_init {state : AvlState} {tree : BinaryTree Ptr}
    (h : Laid state tree) {p : Ptr} (hfresh : p ∉ inorder tree) :
    Layout (state.mem.write p avlInit) none tree := by
  apply h.layout.congr
  intro x hx
  exact AVLMem.write_other _ _ fun heq => hfresh (heq ▸ hx)

theorem Laid.length_context_lt {state : AvlState} {context : Context Ptr}
    (h : Laid state (context.plug .nil)) :
    context.length < state.nodes.length + 1 := by
  have hsize := context.length_add_numNodes_le .nil
  rw [h.nodes, length_inorder]
  omega

theorem Laid.link {state : AvlState} {tree : BinaryTree Ptr}
    (h : Laid state tree) {hole : Option (Ptr × Side)} {p : Ptr}
    (hplaced : (AvlOp.link hole p).Placed state) :
    ∃ mem root after, (AvlOp.link hole p).run state = some (mem, root) ∧
      Laid ⟨mem, root, (AvlOp.link hole p).splice state.nodes⟩ after ∧
      after.numNodes = tree.numNodes + 1 := by
  obtain ⟨context, rfl, hlink, hsplice⟩ := h.hole hplaced
  have hfresh := hplaced.1
  rw [h.nodes] at hfresh
  obtain ⟨mem, root, after, hfix, hroot, hinserted⟩ :=
    avlLink_spec (h.write_init hfresh) h.distinct h.balanced hfresh
      (AVLMem.write_self _ _ _) h.length_context_lt
  have hmiddle : (context.before ++ p :: context.after).Perm
      (p :: inorder (context.plug .nil)) := by
    rw [Context.inorder_plug]
    simp [inorder]
  refine ⟨mem, some root, after, ?_, ⟨hinserted.layout, hroot.symm, ?_, ?_,
    hinserted.balanced⟩, ?_⟩
  · rw [← hlink]
    simp [AvlOp.run, hfix]
  · rw [hsplice, hinserted.inorder_eq]
  · rw [hinserted.inorder_eq, hmiddle.nodup_iff]
    exact List.nodup_cons.mpr ⟨hfresh, h.distinct⟩
  · rw [← length_inorder, hinserted.inorder_eq, hmiddle.length_eq,
      List.length_cons, length_inorder]

theorem Laid.del {state : AvlState} {tree : BinaryTree Ptr}
    (h : Laid state tree) {p : Ptr} (hplaced : (AvlOp.del p).Placed state) :
    ∃ mem root after, (AvlOp.del p).run state = some (mem, root) ∧
      Laid ⟨mem, root, (AvlOp.del p).splice state.nodes⟩ after ∧
      after.numNodes = tree.numNodes - 1 := by
  have hp : p ∈ inorder tree := h.nodes ▸ hplaced
  have hfuel : tree.numNodes ≤ state.nodes.length := by
    rw [h.nodes, length_inorder]
  obtain ⟨mem, after, hdel, hdeleted⟩ :=
    avlDel_spec h.layout h.distinct h.balanced hp hfuel
  refine ⟨mem, rootLabel after, after, hdel, ⟨hdeleted.layout, rfl, ?_, ?_,
    hdeleted.balanced⟩, ?_⟩
  · rw [AvlOp.splice, hdeleted.inorder_eq, h.nodes]
  · rw [hdeleted.inorder_eq]
    exact h.distinct.erase p
  · rw [← length_inorder, hdeleted.inorder_eq, List.length_erase_of_mem hp,
      length_inorder]

theorem Laid.run {state : AvlState} {tree : BinaryTree Ptr}
    (h : Laid state tree) {op : AvlOp} (hplaced : op.Placed state) :
    ∃ mem root after, op.run state = some (mem, root) ∧
      Laid ⟨mem, root, op.splice state.nodes⟩ after := by
  cases op with
  | link hole p =>
      obtain ⟨mem, root, after, hrun, hafter, _⟩ := h.link hplaced
      exact ⟨mem, root, after, hrun, hafter⟩
  | del p =>
      obtain ⟨mem, root, after, hrun, hafter, _⟩ := h.del hplaced
      exact ⟨mem, root, after, hrun, hafter⟩

theorem Shape.run {state : AvlState} {tree : BinaryTree Ptr}
    (h : Shape state tree) {op : AvlOp} (hallowed : op.Allowed state) :
    ∃ mem root after, op.run state = some (mem, root) ∧
      Shape ⟨mem, root, op.splice state.nodes⟩ after := by
  have hlength : tree.numNodes = state.nodes.length := by
    rw [h.nodes, length_inorder]
  have hbound := h.bound
  cases op with
  | link hole p =>
      obtain ⟨mem, root, after, hrun, hafter, hsize⟩ :=
        h.laid.link hallowed.placed
      have hroom := hallowed.2.1
      exact ⟨mem, root, after, hrun, hafter.layout, hafter.root, hafter.nodes,
        hafter.distinct, hafter.balanced, by omega⟩
  | del p =>
      obtain ⟨mem, root, after, hrun, hafter, hsize⟩ :=
        h.laid.del hallowed.placed
      exact ⟨mem, root, after, hrun, hafter.layout, hafter.root, hafter.nodes,
        hafter.distinct, hafter.balanced, by omega⟩

theorem AvlReachable.shape {state : AvlState} (h : AvlReachable state) :
    ∃ tree, Shape state tree := by
  induction h with
  | empty mem => exact ⟨.nil, trivial, rfl, rfl, by simp [inorder], trivial,
      by simp⟩
  | step _ hallowed hrun ih =>
      obtain ⟨tree, htree⟩ := ih
      obtain ⟨mem', root', after, hrun', hafter⟩ := htree.run hallowed
      rw [hrun] at hrun'
      cases hrun'
      exact ⟨after, hafter⟩

/-- Nodes linked to the right of each other, of which the third rotates the tree. -/
theorem exists_threeNodes : ∃ mem, AvlReachable ⟨mem, some 2, [1, 2, 3]⟩ ∧
    avlHeight mem (some 2) = 2 := by
  have heval : ((AvlOp.link none 1).run ⟨{}, none, []⟩ |>.bind fun first =>
      (AvlOp.link (some (1, .right)) 2).run ⟨first.1, first.2, [1]⟩ |>.bind fun second =>
      (AvlOp.link (some (2, .right)) 3).run ⟨second.1, second.2, [1, 2]⟩ |>.map
        fun third => ([(first.1 1).right, (second.1 2).right, third.2],
          avlHeight third.1 (some 2))) = some ([none, none, some 2], 2) := by
    decide +kernel
  obtain ⟨⟨mem, root⟩, hfirst, heval⟩ := Option.bind_eq_some_iff.mp heval
  obtain ⟨⟨mem', root'⟩, hsecond, heval⟩ := Option.bind_eq_some_iff.mp heval
  obtain ⟨⟨mem'', root''⟩, hthird, heval⟩ := Option.map_eq_some_iff.mp heval
  simp only [Prod.mk.injEq, List.cons.injEq, and_true] at heval
  obtain ⟨⟨hone, htwo, rfl⟩, hheight⟩ := heval
  have hreach : AvlReachable ⟨mem, root, [1]⟩ :=
    .step (.empty {}) (by simp [AvlOp.Allowed]) hfirst
  have hreach : AvlReachable ⟨mem', root', [1, 2]⟩ :=
    .step hreach (by simp [AvlOp.Allowed, AVLNode.child, hone]) hsecond
  have hreach : AvlReachable ⟨mem'', some 2, [1, 2, 3]⟩ :=
    .step hreach (by simp [AvlOp.Allowed, AVLNode.child, htwo]) hthird
  exact ⟨mem'', hreach, hheight⟩

/-- In every state of every run the tree is well formed, and every operation
a caller may ask for returns the root of a well-formed tree whose sequence has
the node spliced in at its link, or removed. -/
theorem avl_runs_wellFormed {state : AvlState} (h : AvlReachable state) :
    AvlWellFormed state.mem state.root state.nodes ∧
    ∀ op : AvlOp, op.Allowed state →
      ∃ mem root, op.run state = some (mem, root) ∧
        AvlWellFormed mem root (op.splice state.nodes) := by
  obtain ⟨tree, htree⟩ := h.shape
  refine ⟨htree.wellFormed, ?_⟩
  intro op hallowed
  obtain ⟨mem, root, after, hrun, hafter⟩ := htree.run hallowed
  exact ⟨mem, root, hrun, hafter.wellFormed⟩

theorem avl_runs_wellFormed_three : ∃ mem mem' root,
    AvlWellFormed mem (some 2) [1, 2, 3] ∧
    (AvlOp.del 2).run ⟨mem, some 2, [1, 2, 3]⟩ = some (mem', root) ∧
    AvlWellFormed mem' root [1, 3] := by
  obtain ⟨mem, hreach, -⟩ := exists_threeNodes
  obtain ⟨hformed, hruns⟩ := avl_runs_wellFormed hreach
  obtain ⟨mem', root, hdel, hafter⟩ := hruns (.del 2) (by simp [AvlOp.Allowed])
  exact ⟨mem, mem', root, hformed, hdel, hafter⟩

end MiniRedis.Ds
