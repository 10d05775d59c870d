import MiniRedis.Ds.AvlFix

namespace MiniRedis.Ds

open MiniRedis.Data

variable {mem : AVLMem} {context : Context Ptr} {side : Side} {p v : Ptr}

/-! Detaching a node with at most one child. -/

theorem only_child {child : BinaryTree Ptr} {parent : Option Ptr}
    (h : NodeAt mem parent side p child .nil) :
    (mem p).left.or (mem p).right = rootLabel child := by
  cases side with
  | left =>
      have hleft : (mem p).left = rootLabel child := h.nearLink
      have hright : (mem p).right = none := h.farLink
      rw [hleft, hright, Option.or_none]
  | right =>
      have hright : (mem p).right = rootLabel child := h.nearLink
      have hleft : (mem p).left = none := h.farLink
      rw [hleft, hright, Option.none_or]

/-- The memory in which the child of `p` has taken its place below `frame`. -/
def spliced (mem : AVLMem) (frame : Frame Ptr) (child : Option Ptr) : AVLMem :=
  (mem.adopt child (some frame.label)).setChild frame.label frame.side child

theorem splice_spec {child : BinaryTree Ptr} {frame : Frame Ptr}
    (h : Layout mem none
      (Context.plug (frame :: context) (sideNode side p child .nil)))
    (hnodup : (inorder
      (Context.plug (frame :: context) (sideNode side p child .nil))).Nodup) :
    (mem p).left.or (mem p).right = rootLabel child ∧
      (mem p).parent = some frame.label ∧
      (if (mem.adopt (rootLabel child) (some frame.label)
        frame.label).left = some p then Side.left else Side.right) =
        frame.side ∧
      Fixable (spliced mem frame (rootLabel child)) (frame :: context)
        child := by
  obtain ⟨hlayout, hframes, hlabels⟩ := h.fixable (frame :: context) hnodup
  rw [rootLabel_sideNode] at hframes
  obtain ⟨hnode, _, hdisjoint⟩ := List.nodup_append'.mp hlabels
  obtain ⟨hpchild, _, hchildNodup, _⟩ := (nodup_inorder_sideNode side).mp hnode
  have hp : p ∉ Context.labels (frame :: context) :=
    hdisjoint (mem_inorder_sideNode.mpr (.inl rfl))
  have hchild := only_child hlayout.nodeAt
  have hadopted := hlayout.nodeAt.nearLayout.adopt hchildNodup
    (some frame.label)
  have hother : ∀ x, x ∉ inorder child →
      mem.adopt (rootLabel child) (some frame.label) x = mem x := by
    intro x hx
    rw [AVLMem.adopt_apply, if_neg (rootLabel_ne hx)]
  have hparent : (mem p).parent = some frame.label :=
    hlayout.nodeAt.parentLink
  have hparent' : (mem.adopt (rootLabel child) (some frame.label)
      p).parent = some frame.label :=
    (congrArg AVLNode.parent (hother p hpchild)).trans hparent
  have hframes' : ContextLayout (mem.adopt (rootLabel child)
      (some frame.label)) (frame :: context) (some p) :=
    hframes.congr fun x hx => hother x fun hxchild =>
      hdisjoint (mem_inorder_sideNode.mpr (.inr (.inl hxchild))) hx
  have hlink := owningLink_eq hframes' hparent' hp
  refine ⟨hchild, hparent, ?_, ?_⟩
  · simpa [owningLink, hparent', holeLink] using hlink
  · apply Fixable.attach hframes hlabels _ hadopted
    · intro x hx
      exact hother x fun hxchild =>
        hx (mem_inorder_sideNode.mpr (.inr (.inl hxchild)))
    · cases side <;> simp [sideNode, inorder]

theorem avlDelEasy_spec {fuel : Nat} {child : BinaryTree Ptr}
    (h : Layout mem none (context.plug (sideNode side p child .nil)))
    (hnodup : (inorder (context.plug (sideNode side p child .nil))).Nodup)
    (hfuel : context.length ≤ fuel) :
    ∃ mem', avlDelEasy fuel mem p =
        some (mem', rootLabel (context.fixUp child)) ∧
      Layout mem' none (context.fixUp child) ∧
      ∀ x, x ∉ inorder (context.plug (sideNode side p child .nil)) →
        mem' x = mem x := by
  cases context with
  | nil =>
      have hnode := h.nodeAt
      obtain ⟨_, _, hchildNodup, _⟩ := (nodup_inorder_sideNode side).mp hnodup
      refine ⟨mem.adopt (rootLabel child) none, ?_,
        hnode.nearLayout.adopt hchildNodup none, ?_⟩
      · simp only [avlDelEasy, hnode.parentLink, only_child hnode,
          Context.fixUp]
      · intro x hx
        rw [AVLMem.adopt_apply, if_neg (rootLabel_ne fun hxchild =>
          hx (mem_inorder_sideNode.mpr (.inr (.inl hxchild))))]
  | cons frame context =>
      obtain ⟨hchild, hparent, hside, hfixable⟩ := splice_spec h hnodup
      obtain ⟨mem', root, hfix, hbuilt⟩ := avlFix_spec hfixable hfuel
      refine ⟨mem', ?_, hbuilt.layout, ?_⟩
      · rw [spliced] at hfix
        simp only [avlDelEasy, hchild, hparent, hside, hfix,
          Option.bind_eq_bind, Option.bind_some]
        rw [hbuilt.root]
      · intro x hx
        rw [(Context.inorder_plug_perm _ _).mem_iff, List.mem_append,
          not_or] at hx
        have hxframe : x ≠ frame.label := fun heq =>
          hx.2 (by simp [Context.labels, heq])
        have hxchild : x ∉ inorder child := fun hxchild =>
          hx.1 (mem_inorder_sideNode.mpr (.inr (.inl hxchild)))
        rw [hbuilt.outside x, spliced, AVLMem.setChild_apply,
          if_neg hxframe, AVLMem.adopt_apply, if_neg (rootLabel_ne hxchild)]
        rw [(Context.inorder_plug_perm _ _).mem_iff, List.mem_append, not_or]
        exact ⟨hxchild, hx.2⟩

/-! Replacing a subtree by one of the same shape leaves every aggregate above
exact. -/

structure SameSize (first second : BinaryTree Ptr) : Prop where
  height : first.height = second.height
  numNodes : first.numNodes = second.numNodes

theorem SameSize.fill {first second : BinaryTree Ptr}
    (h : SameSize first second) (frame : Frame Ptr) :
    SameSize (frame.fill first) (frame.fill second) := by
  rcases frame with ⟨side, label, sibling⟩
  cases side with
  | left => exact ⟨by simp [Frame.fill, sideNode, h.height],
      by simp [Frame.fill, sideNode, h.numNodes]⟩
  | right => exact ⟨by simp [Frame.fill, sideNode, h.height],
      by simp [Frame.fill, sideNode, h.numNodes]⟩

theorem Layout.fill {mem' : AVLMem} {frame : Frame Ptr}
    {parent : Option Ptr} {old new : BinaryTree Ptr}
    (h : Layout mem parent (frame.fill old)) (hsize : SameSize new old)
    (hnew : Layout mem' (some frame.label) new)
    (hcell : mem' frame.label =
      (mem frame.label).withChild frame.side (rootLabel new))
    (hsibling : ∀ x ∈ inorder frame.sibling, mem' x = mem x) :
    Layout mem' parent (frame.fill new) := by
  rcases frame with ⟨side, label, sibling⟩
  cases side with
  | left =>
      obtain ⟨hold, _, hlayout⟩ := h
      refine ⟨?_, hnew, hlayout.congr hsibling⟩
      rw [hcell, hold]
      simp [AVLNode.withChild, nodeCell, hsize.height, hsize.numNodes]
  | right =>
      obtain ⟨hold, hlayout, _⟩ := h
      refine ⟨?_, hlayout.congr hsibling, hnew⟩
      rw [hcell, hold]
      simp [AVLNode.withChild, nodeCell, hsize.height, hsize.numNodes]

theorem AVLNode.withChild_child (node : AVLNode) (side : Side) :
    node.withChild side (node.child side) = node := by
  cases side <;> rfl

theorem Layout.plug_replace (context : Context Ptr) {mem' : AVLMem}
    {old new : BinaryTree Ptr}
    (h : Layout mem none (context.plug old)) (hsize : SameSize new old)
    (hroot : rootLabel new = rootLabel old)
    (hnew : Layout mem' context.parent new)
    (hagree : ∀ x ∈ context.labels, mem' x = mem x) :
    Layout mem' none (context.plug new) := by
  induction context generalizing old new with
  | nil => exact hnew
  | cons frame context ih =>
      have hfill := (Layout.frames context h).1
      refine ih h (hsize.fill frame) (by simp [Frame.fill])
        (hfill.fill hsize hnew ?_ ?_) ?_
      · rw [hagree frame.label (by simp [Context.labels]), hroot,
          ← hfill.nodeAt.nearLink, AVLNode.withChild_child]
      · intro x hx
        exact hagree x (by simp [Context.labels, hx])
      · intro x hx
        exact hagree x (by simp [Context.labels, hx])

theorem Layout.plug_attach {mem' : AVLMem} {old new : BinaryTree Ptr}
    (h : Layout mem none (context.plug old)) (hsize : SameSize new old)
    (hlabels : context.labels.Nodup)
    (hnew : Layout (mem'.attach (holeLink context) (rootLabel new))
      context.parent new)
    (hagree : ∀ x ∈ context.labels, mem' x = mem x) :
    Layout (mem'.attach (holeLink context) (rootLabel new)) none
      (context.plug new) := by
  cases context with
  | nil => exact hnew
  | cons frame context =>
      simp only [Context.labels, List.nodup_cons, List.mem_append,
        not_or] at hlabels
      obtain ⟨⟨hsibling, hcontext⟩, _⟩ := hlabels
      have hother : ∀ x, x ∈ Context.labels (frame :: context) →
          x ≠ frame.label → mem'.attach (holeLink (frame :: context))
            (rootLabel new) x = mem x := by
        intro x hx hne
        rw [← hagree x hx]
        simp [AVLMem.attach, holeLink, AVLMem.setChild_apply, hne]
      refine Layout.plug_replace context h (hsize.fill frame) (by simp [Frame.fill])
        ((Layout.frames context h).1.fill hsize hnew ?_ ?_) ?_
      · rw [← hagree frame.label (by simp [Context.labels])]
        simp [AVLMem.attach, holeLink, AVLMem.setChild_apply]
      · intro x hx
        exact hother x (by simp [Context.labels, hx])
          fun heq => hsibling (heq ▸ hx)
      · intro x hx
        exact hother x (by simp [Context.labels, hx])
          fun heq => hcontext (heq ▸ hx)

/-! The victim takes over the position of the deleted node. -/

def transplantCells (mem : AVLMem) (node victim : Ptr) : AVLMem :=
  ((mem.write victim (mem node)).adopt (mem node).left (some victim)).adopt
    (mem node).right (some victim)

theorem transplant_eq {root : Option Ptr} (hleft : (mem p).left ≠ some v) :
    transplant mem p v root =
      match owningLink (transplantCells mem p v) p with
      | none => (transplantCells mem p v, some v)
      | some link =>
          ((transplantCells mem p v).attach (some link) (some v), root) := by
  have hright : (((mem.write v (mem p)).adopt (mem p).left (some v)) v).right =
      (mem p).right := by
    rw [AVLMem.adopt_apply, if_neg hleft, AVLMem.write_self]
  have hcells :
      (let mem := mem.write v (mem p)
        let mem := mem.adopt (mem v).left (some v)
        mem.adopt (mem v).right (some v)) = transplantCells mem p v := by
    simp only [AVLMem.write_self, hright, transplantCells]
  exact congrArg (fun cells : AVLMem =>
    match owningLink cells p with
    | none => (cells, some v)
    | some link => (cells.attach (some link) (some v), root)) hcells

theorem transplantCells_other {left right : BinaryTree Ptr} {x : Ptr}
    {parent : Option Ptr} (h : NodeAt mem parent .left p left right)
    (hxv : x ≠ v) (hleft : x ∉ inorder left) (hright : x ∉ inorder right) :
    transplantCells mem p v x = mem x := by
  have hl : (mem p).left = rootLabel left := h.nearLink
  have hr : (mem p).right = rootLabel right := h.farLink
  rw [transplantCells, hl, hr, AVLMem.adopt_apply,
    if_neg (rootLabel_ne hright), AVLMem.adopt_apply,
    if_neg (rootLabel_ne hleft), AVLMem.write_other mem _ hxv]

theorem transplantCells_layout {left right : BinaryTree Ptr}
    {parent : Option Ptr} (h : Layout mem parent (.node p left right))
    (hnodup : (inorder (.node p left right)).Nodup)
    (hv : v ∉ inorder (.node p left right)) :
    Layout (transplantCells mem p v) parent (.node v left right) := by
  obtain ⟨hcell, hleft, hright⟩ := h
  obtain ⟨hpleft, hpright, hleftNodup, hrightNodup, hdisjoint⟩ :=
    (nodup_inorder_sideNode .left).mp hnodup
  simp only [inorder, List.mem_append, List.mem_cons, not_or] at hv
  obtain ⟨hvleft, _, hvright⟩ := hv
  have hl : (mem p).left = rootLabel left := by rw [hcell]; rfl
  have hr : (mem p).right = rootLabel right := by rw [hcell]; rfl
  rw [transplantCells, hl, hr]
  have hwrite : ∀ x, x ≠ v → mem.write v (mem p) x = mem x :=
    fun x hx => AVLMem.write_other mem _ hx
  have hleft' := (hleft.congr fun x hx =>
    hwrite x fun heq => hvleft (heq ▸ hx)).adopt hleftNodup (some v)
  have hright' : Layout ((mem.write v (mem p)).adopt (rootLabel left) (some v))
      (some p) right := by
    apply hright.congr
    intro x hx
    rw [AVLMem.adopt_apply, if_neg, hwrite x fun heq => hvright (heq ▸ hx)]
    exact rootLabel_ne fun hxleft => hdisjoint hxleft hx
  refine ⟨?_, hleft'.congr ?_, hright'.adopt hrightNodup (some v)⟩
  · rw [AVLMem.adopt_apply, if_neg (rootLabel_ne hvright),
      AVLMem.adopt_apply, if_neg (rootLabel_ne hvleft), AVLMem.write_self,
      hcell]
  · intro x hx
    rw [AVLMem.adopt_apply, if_neg]
    exact rootLabel_ne fun hxright => hdisjoint hx hxright

theorem transplant_spec {left right : BinaryTree Ptr}
    (h : Layout mem none (context.plug (.node p left right)))
    (hnodup : (inorder (context.plug (.node p left right))).Nodup)
    (hv : v ∉ inorder (context.plug (.node p left right))) :
    ∃ mem', transplant mem p v
          (rootLabel (context.plug (.node p left right))) =
        (mem', rootLabel (context.plug (.node v left right))) ∧
      Layout mem' none (context.plug (.node v left right)) ∧
      ∀ x, x ≠ v → x ∉ inorder (context.plug (.node p left right)) →
        mem' x = mem x := by
  obtain ⟨hlayout, hframes, hlabels⟩ := h.fixable context hnodup
  obtain ⟨hnode, hcontext, hdisjoint⟩ := List.nodup_append'.mp hlabels
  rw [(Context.inorder_plug_perm _ _).mem_iff, List.mem_append, not_or] at hv
  obtain ⟨hvnode, hvcontext⟩ := hv
  have hnodeAt : NodeAt mem context.parent .left p left right :=
    Layout.nodeAt hlayout
  obtain ⟨hpleft, hpright, _⟩ := (nodup_inorder_sideNode .left).mp hnode
  have hpv : p ≠ v := fun heq => hvnode (by simp [inorder, heq])
  have hother : ∀ x, x ≠ v → x ∉ inorder (.node p left right) →
      transplantCells mem p v x = mem x := by
    intro x hxv hx
    simp only [inorder, List.mem_append, List.mem_cons, not_or] at hx
    exact transplantCells_other hnodeAt hxv hx.1 hx.2.2
  have hagree : ∀ x ∈ context.labels, transplantCells mem p v x = mem x := by
    intro x hx
    exact hother x (fun heq => hvcontext (heq ▸ hx))
      fun hxnode => hdisjoint hxnode hx
  have hcell : transplantCells mem p v p = mem p :=
    transplantCells_other hnodeAt hpv hpleft hpright
  have hlink : owningLink (transplantCells mem p v) p = holeLink context := by
    apply owningLink_eq (hframes.congr hagree)
    · rw [hcell, hnodeAt.parentLink]
    · exact hdisjoint (by simp [inorder])
  have hleft : (mem p).left ≠ some v := by
    rw [show (mem p).left = rootLabel left from hnodeAt.nearLink]
    exact rootLabel_ne fun hvleft => hvnode (by simp [inorder, hvleft])
  have hcells := transplantCells_layout hlayout hnode hvnode
  have hattached : Layout ((transplantCells mem p v).attach (holeLink context)
      (some v)) context.parent (.node v left right) := by
    apply hcells.congr
    intro x hx
    apply attach_other
    simp only [inorder, List.mem_append, List.mem_cons] at hx
    rcases hx with hx | rfl | hx
    · exact hdisjoint (by simp [inorder, hx])
    · exact hvcontext
    · exact hdisjoint (by simp [inorder, hx])
  have hsize : SameSize (.node v left right) (.node p left right) := ⟨rfl, rfl⟩
  have hplug : Layout ((transplantCells mem p v).attach (holeLink context)
      (some v)) none (context.plug (.node v left right)) :=
    Layout.plug_attach h hsize hcontext hattached hagree
  refine ⟨_, ?_, hplug, ?_⟩
  · rw [transplant_eq hleft, hlink]
    cases context with
    | nil => rfl
    | cons frame context =>
        have hroot : rootLabel (Context.plug (frame :: context)
            (.node p left right)) = rootLabel (Context.plug (frame :: context)
              (.node v left right)) :=
          Context.rootLabel_plug_congr context (by simp [Frame.fill])
        rw [hroot]
        rfl
  · intro x hxv hx
    rw [(Context.inorder_plug_perm _ _).mem_iff, List.mem_append, not_or] at hx
    rw [attach_other _ hx.2, hother x hxv hx.1]

theorem leftmost_spec {fuel : Nat} {parent : Option Ptr}
    {left right : BinaryTree Ptr} (h : Layout mem parent (.node p left right))
    (hfuel : (BinaryTree.node p left right).numNodes ≤ fuel) :
    ∃ (spine : Context Ptr) (first : Ptr) (rest : BinaryTree Ptr),
      leftmost fuel mem p = some first ∧
      .node p left right = spine.plug (.node first .nil rest) ∧
      ∀ frame ∈ spine, frame.side = .left := by
  induction left generalizing p parent right fuel with
  | nil =>
      obtain ⟨fuel, rfl⟩ := Nat.exists_eq_succ_of_ne_zero
        (by simp at hfuel; omega : fuel ≠ 0)
      refine ⟨[], p, right, ?_, rfl, by simp⟩
      simp [leftmost, h.1, nodeCell, rootLabel]
  | node inner below above ih _ =>
      simp only [BinaryTree.numNodes] at hfuel
      obtain ⟨fuel, rfl⟩ := Nat.exists_eq_succ_of_ne_zero
        (by omega : fuel ≠ 0)
      have hinner : (BinaryTree.node inner below above).numNodes ≤ fuel := by
        simp only [BinaryTree.numNodes]
        omega
      obtain ⟨spine, first, rest, hwalk, htree, hspine⟩ := ih h.2.1 hinner
      refine ⟨spine ++ [⟨.left, p, right⟩], first, rest, ?_, ?_, ?_⟩
      · simpa [leftmost, h.1, nodeCell, rootLabel] using hwalk
      · rw [Context.plug_append, ← htree]
        rfl
      · intro frame hframe
        rcases List.mem_append.mp hframe with hframe | hframe
        · exact hspine frame hframe
        · rw [List.mem_singleton.mp hframe]

structure Deleted (mem mem' : AVLMem) (p : Ptr)
    (before after : BinaryTree Ptr) : Prop where
  layout : Layout mem' none after
  balanced : HeightBalanced after
  inorder_eq : inorder after = (inorder before).erase p
  outside : ∀ x, x ∉ inorder before → mem' x = mem x

theorem erase_middle {before after : List Ptr}
    (hnodup : (before ++ p :: after).Nodup) :
    (before ++ p :: after).erase p = before ++ after := by
  have hp : p ∉ before := by
    intro hmem
    exact (List.nodup_append'.mp hnodup).2.2 hmem (by simp)
  rw [List.erase_append_right _ hp, List.erase_cons_head]

theorem avlDelEasy_deleted {fuel : Nat} {child : BinaryTree Ptr}
    (h : Layout mem none (context.plug (sideNode side p child .nil)))
    (hnodup : (inorder (context.plug (sideNode side p child .nil))).Nodup)
    (hbalanced : HeightBalanced (context.plug (sideNode side p child .nil)))
    (hfuel : (context.plug (sideNode side p child .nil)).numNodes ≤ fuel) :
    ∃ mem' after, avlDelEasy fuel mem p = some (mem', rootLabel after) ∧
      Deleted mem mem' p (context.plug (sideNode side p child .nil)) after := by
  have hlength : context.length ≤ fuel := by
    have := context.length_add_numNodes_le (sideNode side p child .nil)
    omega
  obtain ⟨mem', hdel, hlayout, houtside⟩ := avlDelEasy_spec h hnodup hlength
  have hnode := context.balanced_of_plug hbalanced
  refine ⟨mem', context.fixUp child, hdel, hlayout, ?_, ?_, houtside⟩
  · apply context.balanced_fixUp hbalanced
    · exact ((balanced_sideNode side p).mp hnode).2.2.1
    · constructor <;> simp only [height_sideNode, BinaryTree.height] <;> omega
  · rw [Context.inorder_plug] at hnodup ⊢
    rw [Context.inorder_fixUp]
    cases side with
    | left =>
        have hsplit : context.before ++ inorder (sideNode .left p child .nil) ++
            context.after =
            (context.before ++ inorder child) ++ p :: context.after := by
          simp [sideNode, inorder]
        rw [hsplit] at hnodup ⊢
        rw [erase_middle hnodup]
    | right =>
        have hsplit : context.before ++ inorder (sideNode .right p child .nil) ++
            context.after =
            context.before ++ p :: (inorder child ++ context.after) := by
          simp [sideNode, inorder]
        rw [hsplit] at hnodup ⊢
        rw [erase_middle hnodup, List.append_assoc]

theorem successor_spec {fuel : Nat} {left right : BinaryTree Ptr} {r : Ptr}
    (h : Layout mem none (context.plug (.node p left right)))
    (hright : rootLabel right = some r)
    (hfuel : (context.plug (.node p left right)).numNodes ≤ fuel) :
    ∃ outer first rest after, leftmost fuel mem r = some first ∧
      context.plug (.node p left right) =
        Context.plug outer (sideNode .right first rest .nil) ∧
      inorder (context.plug (.node p left right)) =
        (context.before ++ inorder left) ++ p :: first :: after := by
  cases right with
  | nil => cases hright
  | node _ below above =>
      cases hright
      obtain ⟨_, _, hlayout⟩ := (Layout.frames context h).1
      have hsize : (BinaryTree.node r below above).numNodes ≤ fuel := by
        have := context.length_add_numNodes_le
          (.node p left (.node r below above))
        simp only [BinaryTree.numNodes] at this ⊢
        omega
      obtain ⟨spine, first, rest, hwalk, htree, hspine⟩ :=
        leftmost_spec hlayout hsize
      refine ⟨spine ++ ⟨.right, p, left⟩ :: context, first, rest,
        inorder rest ++ spine.after ++ context.after, hwalk, ?_, ?_⟩
      · rw [Context.plug_append, Context.plug_cons, htree]
        rfl
      · rw [htree, Context.inorder_plug, inorder, Context.inorder_plug,
          Context.before_of_left hspine]
        simp [inorder]

/-- A node with two children: its successor is detached first, which may
rotate the node anywhere, and then takes over its position. -/
theorem avlDel_two {fuel : Nat} {left right : BinaryTree Ptr} {l r : Ptr}
    (hleft : rootLabel left = some l) (hright : rootLabel right = some r)
    (h : Layout mem none (context.plug (.node p left right)))
    (hnodup : (inorder (context.plug (.node p left right))).Nodup)
    (hbalanced : HeightBalanced (context.plug (.node p left right)))
    (hfuel : (context.plug (.node p left right)).numNodes ≤ fuel) :
    ∃ mem' after, avlDel fuel mem p = some (mem', rootLabel after) ∧
      Deleted mem mem' p (context.plug (.node p left right)) after := by
  obtain ⟨hcell, _, _⟩ := (Layout.frames context h).1
  obtain ⟨outer, first, rest, after, hwalk, hplug, horder⟩ :=
    successor_spec h hright hfuel
  obtain ⟨mem₁, tree₁, hdel, hdeleted⟩ : ∃ mem₁ tree₁,
      avlDelEasy fuel mem first = some (mem₁, rootLabel tree₁) ∧
      Deleted mem mem₁ first (context.plug (.node p left right)) tree₁ := by
    rw [hplug] at h hnodup hbalanced hfuel ⊢
    exact avlDelEasy_deleted h hnodup hbalanced hfuel
  have horder₁ : inorder tree₁ =
      (context.before ++ inorder left) ++ p :: after := by
    have hmiddle : (context.before ++ inorder left) ++ p :: first :: after =
        ((context.before ++ inorder left) ++ [p]) ++ first :: after := by simp
    rw [horder, hmiddle] at hnodup
    rw [hdeleted.inorder_eq, horder, hmiddle, erase_middle hnodup]
    simp
  have hnodup₁ : (inorder tree₁).Nodup := by
    rw [hdeleted.inorder_eq]
    exact hnodup.erase first
  have hfirst : first ∉ inorder tree₁ := by
    rw [hdeleted.inorder_eq]
    exact hnodup.not_mem_erase
  obtain ⟨context₁, left₁, right₁, rfl⟩ :=
    exists_plug_of_mem (by simp [horder₁] : p ∈ inorder tree₁)
  obtain ⟨mem', htransplant, hlayout, houtside⟩ :=
    transplant_spec hdeleted.layout hnodup₁ hfirst
  refine ⟨mem', context₁.plug (.node first left₁ right₁), ?_, hlayout, ?_, ?_,
    ?_⟩
  · have hl : (mem p).left = some l := by rw [hcell, ← hleft]; rfl
    have hr : (mem p).right = some r := by rw [hcell, ← hright]; rfl
    simp only [avlDel, hl, hr, hwalk, hdel, htransplant, Option.bind_eq_bind,
      Option.bind_some]
  · apply context₁.balanced_plug_congr hdeleted.balanced
    · exact (context₁.balanced_of_plug hdeleted.balanced :)
    · rfl
  · rw [context₁.inorder_relabel first horder₁ hnodup₁]
    rw [horder] at hnodup ⊢
    rw [erase_middle hnodup]
  · intro x hx
    have hxfirst : x ≠ first := by
      rintro rfl
      exact hx (by simp [horder])
    rw [houtside x hxfirst, hdeleted.outside x hx]
    rw [hdeleted.inorder_eq]
    exact fun hmem => hx (List.mem_of_mem_erase hmem)

/-- `avl_del` removes exactly the given node of a balanced tree. -/
theorem avlDel_spec {fuel : Nat} {tree : BinaryTree Ptr}
    (h : Layout mem none tree) (hnodup : (inorder tree).Nodup)
    (hbalanced : HeightBalanced tree) (hp : p ∈ inorder tree)
    (hfuel : tree.numNodes ≤ fuel) :
    ∃ mem' after, avlDel fuel mem p = some (mem', rootLabel after) ∧
      Deleted mem mem' p tree after := by
  obtain ⟨context, left, right, rfl⟩ := exists_plug_of_mem hp
  have hcell := (Layout.frames context h).1.1
  cases left with
  | nil =>
      obtain ⟨mem', after, hdel, hdeleted⟩ : ∃ mem' after,
          avlDelEasy fuel mem p = some (mem', rootLabel after) ∧
          Deleted mem mem' p (context.plug (sideNode .right p right .nil))
            after :=
        avlDelEasy_deleted h hnodup hbalanced hfuel
      refine ⟨mem', after, ?_, hdeleted⟩
      simp [avlDel, hcell, nodeCell, rootLabel, hdel]
  | node l first second =>
      cases right with
      | nil =>
          obtain ⟨mem', after, hdel, hdeleted⟩ : ∃ mem' after,
              avlDelEasy fuel mem p = some (mem', rootLabel after) ∧
              Deleted mem mem' p (context.plug
                (sideNode .left p (.node l first second) .nil)) after :=
            avlDelEasy_deleted h hnodup hbalanced hfuel
          refine ⟨mem', after, ?_, hdeleted⟩
          simp [avlDel, hcell, nodeCell, rootLabel, hdel]
      | node r below above =>
          exact avlDel_two rfl rfl h hnodup hbalanced hfuel

end MiniRedis.Ds
