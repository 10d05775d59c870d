import MiniRedis.Ds.AvlLayout

namespace MiniRedis.Ds

open MiniRedis.Data

variable {mem : AVLMem} {parent : Option Ptr} {side : Side} {p q : Ptr}

/-! The pointer code refines the rebalancing pass on trees. -/

/-- The memory a subtree operation leaves: `after` in place of `before`, every
cell outside untouched, and `top` its root. -/
structure Rebuilt (mem mem' : AVLMem) (parent : Option Ptr)
    (before after : BinaryTree Ptr) (top : Ptr) : Prop where
  layout : Layout mem' parent after
  root : rootLabel after = some top
  outside : ∀ x, x ∉ inorder before → mem' x = mem x

def rotateLinks (side : Side) (mem : AVLMem) (node newNode : Ptr) : AVLMem :=
  (((((mem.setChild node side.flip ((mem newNode).child side)).adopt
    ((mem newNode).child side) (some node)).setParent newNode
      (mem node).parent).setChild newNode side (some node)).setParent node
        (some newNode))

theorem rotate_eq {newNode : Ptr}
    (h : (mem p).child side.flip = some newNode) :
    rotate side mem p =
      some (avlUpdate (avlUpdate (rotateLinks side mem p newNode) p) newNode,
        newNode) := by
  simp [rotate, h, rotateLinks]

theorem rotateLinks_node {inner : Option Ptr} (hne : p ≠ q)
    (hinner : (mem q).child side = inner) (hp : inner ≠ some p) :
    rotateLinks side mem p q p =
      { (mem p).withChild side.flip inner with parent := some q } := by
  simp [rotateLinks, AVLMem.setParent_apply, AVLMem.setChild_apply,
    AVLMem.adopt_apply, hinner, hne, hp]

theorem rotateLinks_newNode {inner : Option Ptr} (hne : p ≠ q)
    (hinner : (mem q).child side = inner) (hq : inner ≠ some q) :
    rotateLinks side mem p q q =
      ({ mem q with parent := (mem p).parent } : AVLNode).withChild side
        (some p) := by
  simp [rotateLinks, AVLMem.setParent_apply, AVLMem.setChild_apply,
    AVLMem.adopt_apply, hinner, hne.symm, hq]

theorem rotateLinks_other {inner : Option Ptr} {x : Ptr}
    (hinner : (mem q).child side = inner) (hp : x ≠ p) (hq : x ≠ q) :
    rotateLinks side mem p q x = mem.adopt inner (some p) x := by
  simp [rotateLinks, AVLMem.setParent_apply, AVLMem.setChild_apply,
    AVLMem.adopt_apply, hinner, hp, hq]

theorem rotate_spec {a b c : BinaryTree Ptr}
    (h : NodeAt mem parent side p a (sideNode side q b c))
    (hnodup : (inorder (sideNode side p a (sideNode side q b c))).Nodup) :
    ∃ mem', rotate side mem p = some (mem', q) ∧
      Rebuilt mem mem' parent (sideNode side p a (sideNode side q b c))
        (sideNode side q (sideNode side p a b) c) q := by
  obtain ⟨hpa, hpq, ha, hqbc, hdisjoint⟩ :=
    (nodup_inorder_sideNode side).mp hnodup
  obtain ⟨hqb, hqc, hb, hc, hbc⟩ := (nodup_inorder_sideNode side).mp hqbc
  simp only [mem_inorder_sideNode, not_or] at hpq
  obtain ⟨hpq, hpb, hpc⟩ := hpq
  have hne : p ≠ q := hpq
  have hqa : q ∉ inorder a := fun hq =>
    hdisjoint hq (mem_inorder_sideNode.mpr (.inl rfl))
  have hinner := h.farLayout.nodeAt.nearLink
  have hcellP := rotateLinks_node hne hinner (rootLabel_ne hpb)
  have hcellQ := rotateLinks_newNode hne hinner (rootLabel_ne hqb)
  have hkeep : ∀ x, x ≠ p → x ≠ q → x ∉ inorder b →
      rotateLinks side mem p q x = mem x := by
    intro x hxp hxq hxb
    rw [rotateLinks_other hinner hxp hxq, AVLMem.adopt_apply,
      if_neg (rootLabel_ne hxb)]
  have hinnerLayout : Layout (rotateLinks side mem p q) (some p) b := by
    apply (h.farLayout.nodeAt.nearLayout.adopt hb (some p)).congr
    intro x hx
    exact rotateLinks_other hinner (fun heq => hpb (heq ▸ hx))
      (fun heq => hqb (heq ▸ hx))
  have houterLayout : Layout (rotateLinks side mem p q) (some p) a := by
    apply h.nearLayout.congr
    intro x hx
    refine hkeep x (fun heq => hpa (heq ▸ hx)) (fun heq => hqa (heq ▸ hx)) ?_
    exact fun hxb => hdisjoint hx (mem_inorder_sideNode.mpr (.inr (.inl hxb)))
  have hfarLayout : Layout (rotateLinks side mem p q) (some q) c := by
    apply h.farLayout.nodeAt.farLayout.congr
    intro x hx
    exact hkeep x (fun heq => hpc (heq ▸ hx)) (fun heq => hqc (heq ▸ hx))
      (fun hxb => hbc hxb hx)
  have hlower : NodeAt (rotateLinks side mem p q) (some q) side p a b := by
    refine ⟨by rw [hcellP], ?_, ?_, houterLayout, hinnerLayout⟩
    · rw [hcellP, AVLNode.child_setParent, AVLNode.child_withChild_flip,
        h.nearLink]
    · rw [hcellP, AVLNode.child_setParent, AVLNode.child_withChild]
  have hlowerLayout := hlower.update hpa hpb
  have hupper : NodeAt (avlUpdate (rotateLinks side mem p q) p) parent side q
      (sideNode side p a b) c := by
    have hcell := avlUpdate_other (rotateLinks side mem p q) hne.symm
    refine ⟨?_, ?_, ?_, hlowerLayout, hfarLayout.congr ?_⟩
    · rw [hcell, hcellQ, AVLNode.parent_withChild, h.parentLink]
    · rw [hcell, hcellQ, AVLNode.child_withChild, rootLabel_sideNode]
    · rw [hcell, hcellQ, AVLNode.child_flip_withChild,
        AVLNode.child_setParent, h.farLayout.nodeAt.farLink]
    · intro x hx
      exact avlUpdate_other _ fun heq => hpc (heq ▸ hx)
  have hqlower : q ∉ inorder (sideNode side p a b) := by
    simp only [mem_inorder_sideNode, not_or]
    exact ⟨hne.symm, hqa, hqb⟩
  refine ⟨_, rotate_eq (by rw [h.farLink, rootLabel_sideNode]),
    hupper.update hqlower hqc, rootLabel_sideNode _ _ _ _, ?_⟩
  intro x hx
  simp only [mem_inorder_sideNode, not_or] at hx
  rw [avlUpdate_other _ hx.2.2.1, avlUpdate_other _ hx.1]
  exact hkeep x hx.1 hx.2.2.1 hx.2.2.2.1

theorem NodeAt.replaceNear {mem' : AVLMem} {near near' far : BinaryTree Ptr}
    (h : NodeAt mem parent side p near far)
    (hnodup : (inorder (sideNode side p near far)).Nodup)
    (hbuilt : Rebuilt mem mem' (some p) near near' q)
    (hsame : inorder near' = inorder near) :
    NodeAt (mem'.setChild p side (some q)) parent side p near' far := by
  obtain ⟨hpnear, hpfar, _, _, hdisjoint⟩ :=
    (nodup_inorder_sideNode side).mp hnodup
  have hcell : (mem'.setChild p side (some q)) p =
      (mem p).withChild side (some q) := by
    rw [AVLMem.setChild_apply, if_pos rfl, hbuilt.outside p hpnear]
  have hother : ∀ x, x ≠ p → mem'.setChild p side (some q) x = mem' x := by
    intro x hx
    rw [AVLMem.setChild_apply, if_neg hx]
  refine ⟨?_, ?_, ?_, hbuilt.layout.congr ?_, h.farLayout.congr ?_⟩
  · rw [hcell, AVLNode.parent_withChild, h.parentLink]
  · rw [hcell, AVLNode.child_withChild, hbuilt.root]
  · rw [hcell, AVLNode.child_flip_withChild, h.farLink]
  · intro x hx
    exact hother x fun heq => hpnear (hsame ▸ heq ▸ hx)
  · intro x hx
    rw [hother x fun heq => hpfar (heq ▸ hx)]
    exact hbuilt.outside x fun hxnear => hdisjoint hxnear hx

section FixSide

variable {pivot : Ptr} {outer inner light : BinaryTree Ptr}

theorem NodeAt.avlHeight_outer
    (h : NodeAt mem parent side p (sideNode side pivot outer inner) light) :
    avlHeight mem ((mem pivot).child side) = outer.height := by
  rw [h.nearLayout.nodeAt.nearLink, h.nearLayout.nodeAt.nearLayout.avlHeight_eq]

theorem NodeAt.avlHeight_inner
    (h : NodeAt mem parent side p (sideNode side pivot outer inner) light) :
    avlHeight mem ((mem pivot).child side.flip) = inner.height := by
  rw [h.nearLayout.nodeAt.farLink, h.nearLayout.nodeAt.farLayout.avlHeight_eq]

theorem avlFixSide_single
    (h : NodeAt mem parent side p (sideNode side pivot outer inner) light)
    (hnodup : (inorder (sideNode side p (sideNode side pivot outer inner)
      light)).Nodup)
    (hlean : ¬ outer.height < inner.height) :
    ∃ mem', avlFixSide side mem p = some (mem', pivot) ∧
      Rebuilt mem mem' parent
        (sideNode side p (sideNode side pivot outer inner) light)
        (fixSide side p (sideNode side pivot outer inner) light) pivot := by
  have hchild : (mem p).child side = some pivot := by
    rw [h.nearLink, rootLabel_sideNode]
  have houter := h.avlHeight_outer
  have hinner := h.avlHeight_inner
  rw [← sideNode_flip side pivot, ← sideNode_flip side p] at hnodup
  rw [← sideNode_flip side pivot] at h
  obtain ⟨mem', hrotate, hbuilt⟩ := rotate_spec h.flip hnodup
  refine ⟨mem', ?_, ?_, ?_, ?_⟩
  · simp [avlFixSide, hchild, houter, hinner, hlean, hrotate]
  · rw [fixSide_single side p pivot light hlean]
    simpa only [sideNode_flip] using hbuilt.layout
  · rw [fixSide_single side p pivot light hlean, rootLabel_sideNode]
  · simpa only [sideNode_flip] using hbuilt.outside

theorem avlFixSide_double {middle : Ptr} {below above : BinaryTree Ptr}
    (h : NodeAt mem parent side p
      (sideNode side pivot outer (sideNode side middle below above)) light)
    (hnodup : (inorder (sideNode side p
      (sideNode side pivot outer (sideNode side middle below above))
      light)).Nodup)
    (hlean : outer.height < (sideNode side middle below above).height) :
    ∃ mem', avlFixSide side mem p = some (mem', middle) ∧
      Rebuilt mem mem' parent
        (sideNode side p
          (sideNode side pivot outer (sideNode side middle below above)) light)
        (fixSide side p
          (sideNode side pivot outer (sideNode side middle below above)) light)
        middle := by
  have hchild : (mem p).child side = some pivot := by
    rw [h.nearLink, rootLabel_sideNode]
  obtain ⟨_, _, hheavy, _⟩ := (nodup_inorder_sideNode side).mp hnodup
  obtain ⟨mem₁, hrotate, hbuilt⟩ := rotate_spec h.nearLayout.nodeAt hheavy
  have hsame := inorder_rotated side pivot middle outer below above
  have hnode := h.replaceNear hnodup hbuilt hsame
  have hnodup' : (inorder (sideNode side p
      (sideNode side middle (sideNode side pivot outer below) above)
      light)).Nodup := by
    rw [nodup_inorder_sideNode, hsame, ← nodup_inorder_sideNode]
    exact hnodup
  rw [← sideNode_flip, ← sideNode_flip side middle] at hnodup'
  rw [← sideNode_flip side middle] at hnode
  obtain ⟨mem₂, hrotate', hbuilt'⟩ := rotate_spec hnode.flip hnodup'
  refine ⟨mem₂, ?_, ?_, ?_, ?_⟩
  · have hheights := hlean
    rw [← h.avlHeight_outer, ← h.avlHeight_inner] at hheights
    simp only [avlFixSide, hchild, hheights, hrotate, hrotate',
      Option.bind_eq_bind, Option.bind_some, if_true]
  · rw [fixSide_double side p pivot middle light hlean]
    simpa only [sideNode_flip] using hbuilt'.layout
  · rw [fixSide_double side p pivot middle light hlean, rootLabel_sideNode]
  · intro x hx
    simp only [mem_inorder_sideNode, not_or] at hx
    rw [hbuilt'.outside x, AVLMem.setChild_apply, if_neg hx.1, hbuilt.outside x]
    · simp only [mem_inorder_sideNode, not_or]
      exact hx.2.1
    · simp only [mem_inorder_sideNode, not_or]
      tauto

end FixSide

theorem avlFixSide_spec {heavy light : BinaryTree Ptr}
    (h : NodeAt mem parent side p heavy light)
    (hnodup : (inorder (sideNode side p heavy light)).Nodup)
    (hheight : heavy.height = light.height + 2) :
    ∃ mem' top, avlFixSide side mem p = some (mem', top) ∧
      Rebuilt mem mem' parent (sideNode side p heavy light)
        (fixSide side p heavy light) top := by
  cases heavy with
  | nil => simp at hheight
  | node pivot first second =>
      obtain ⟨outer, inner, hheavy⟩ := exists_sideNode side pivot first second
      rw [hheavy] at h hnodup ⊢
      by_cases hlean : outer.height < inner.height
      · cases inner with
        | nil => simp at hlean
        | node middle third fourth =>
            obtain ⟨below, above, hmiddle⟩ :=
              exists_sideNode side middle third fourth
            rw [hmiddle] at h hnodup hlean ⊢
            obtain ⟨mem', hfix⟩ := avlFixSide_double h hnodup hlean
            exact ⟨mem', middle, hfix⟩
      · obtain ⟨mem', hfix⟩ := avlFixSide_single h hnodup hlean
        exact ⟨mem', pivot, hfix⟩

/-! Climbing: the frames above keep their links, and each gets its aggregates
back when the loop reaches it. -/

variable {context : Context Ptr} {left right : BinaryTree Ptr}

def holeLink : Context Ptr → Option (Ptr × Side)
  | [] => none
  | frame :: _ => some (frame.label, frame.side)

theorem owningLink_eq (h : ContextLayout mem context (some p))
    (hparent : (mem p).parent = context.parent)
    (hp : p ∉ context.labels) : owningLink mem p = holeLink context := by
  cases context with
  | nil =>
      simp only [Context.parent] at hparent
      simp [owningLink, hparent, holeLink]
  | cons frame context =>
      obtain ⟨_, hhole, hlink, _⟩ := h
      simp only [Context.parent] at hparent
      rcases frame with ⟨side, label, sibling⟩
      cases side with
      | left =>
          have heq : (mem label).left = some p := hhole
          simp [owningLink, hparent, holeLink, heq]
      | right =>
          have hne : (mem label).left ≠ some p := by
            rw [show (mem label).left = rootLabel sibling from hlink]
            exact rootLabel_ne fun hmem => hp (by simp [Context.labels, hmem])
          simp [owningLink, hparent, holeLink, hne]

theorem attach_other {x : Ptr} (top : Option Ptr)
    (hx : x ∉ context.labels) :
    mem.attach (holeLink context) top x = mem x := by
  cases context with
  | nil => rfl
  | cons frame context =>
      have hne : x ≠ frame.label := fun heq => hx (by simp [Context.labels, heq])
      simp [AVLMem.attach, holeLink, AVLMem.setChild_apply, hne]

theorem ContextLayout.attach {mem' : AVLMem} {hole hole' : Option Ptr}
    (h : ContextLayout mem context hole)
    (hagree : ∀ x ∈ context.labels, mem' x = mem x)
    (hnodup : context.labels.Nodup) :
    ContextLayout (mem'.attach (holeLink context) hole') context hole' := by
  cases context with
  | nil => trivial
  | cons frame context =>
      simp only [Context.labels, List.nodup_cons, List.mem_append,
        not_or] at hnodup
      obtain ⟨⟨hsibling, hcontext⟩, _⟩ := hnodup
      have hother : ∀ x, x ≠ frame.label →
          mem'.attach (holeLink (frame :: context)) hole' x = mem' x := by
        intro x hx
        simp [AVLMem.attach, holeLink, AVLMem.setChild_apply, hx]
      apply h.rehole
      · rw [← hagree frame.label (by simp [Context.labels])]
        simp [AVLMem.attach, holeLink, AVLMem.setChild_apply]
      · intro x hx
        rw [hother x fun heq => hsibling (heq ▸ hx)]
        exact hagree x (by simp [Context.labels, hx])
      · intro x hx
        rw [hother x fun heq => hcontext (heq ▸ hx)]
        exact hagree x (by simp [Context.labels, hx])

/-- A subtree in place below frames whose links are right, the frames'
aggregates possibly stale: what each pass of `avl_fix` starts from. -/
structure Fixable (mem : AVLMem) (context : Context Ptr)
    (tree : BinaryTree Ptr) : Prop where
  layout : Layout mem context.parent tree
  frames : ContextLayout mem context (rootLabel tree)
  nodup : (inorder tree ++ context.labels).Nodup

theorem Layout.frames (context : Context Ptr) {tree : BinaryTree Ptr}
    (h : Layout mem none (context.plug tree)) :
    Layout mem context.parent tree ∧
      ContextLayout mem context (rootLabel tree) := by
  induction context generalizing tree with
  | nil => exact ⟨h, trivial⟩
  | cons frame context ih =>
      obtain ⟨hfill, hcontext⟩ := ih h
      have hnode := hfill.nodeAt
      rw [Frame.fill, rootLabel_sideNode] at hcontext
      exact ⟨hnode.nearLayout, hnode.parentLink, hnode.nearLink, hnode.farLink,
        hnode.farLayout, hcontext⟩

theorem Layout.fixable (context : Context Ptr) {tree : BinaryTree Ptr}
    (h : Layout mem none (context.plug tree))
    (hnodup : (inorder (context.plug tree)).Nodup) :
    Fixable mem context tree := by
  obtain ⟨hlayout, hframes⟩ := h.frames context
  exact ⟨hlayout, hframes,
    (Context.inorder_plug_perm context tree).nodup_iff.mp hnodup⟩

theorem Fixable.nodeAt {frame : Frame Ptr} {tree : BinaryTree Ptr}
    (h : Fixable mem (frame :: context) tree) :
    NodeAt mem context.parent frame.side frame.label tree frame.sibling := by
  obtain ⟨hparent, hhole, hlink, hsibling, _⟩ := h.frames
  exact ⟨hparent, hhole, hlink, h.layout, hsibling⟩

theorem Fixable.attach {mem' : AVLMem} {hole : Option Ptr}
    {old tree : BinaryTree Ptr}
    (hframes : ContextLayout mem context hole)
    (hnodup : (inorder old ++ context.labels).Nodup)
    (hsub : (inorder tree).Sublist (inorder old))
    (hlayout : Layout mem' context.parent tree)
    (houtside : ∀ x, x ∉ inorder old → mem' x = mem x) :
    Fixable (mem'.attach (holeLink context) (rootLabel tree)) context tree := by
  obtain ⟨_, hlabels, hdisjoint⟩ := List.nodup_append'.mp hnodup
  refine ⟨hlayout.congr ?_, hframes.attach ?_ hlabels,
    hnodup.sublist (hsub.append_right _)⟩
  · intro x hx
    exact attach_other _ (hdisjoint (hsub.subset hx))
  · intro x hx
    exact houtside x fun hxold => hdisjoint hxold hx

theorem Rebuilt.attach {mem' : AVLMem} {old tree : BinaryTree Ptr} {top : Ptr}
    {hole : Option Ptr} (h : Rebuilt mem mem' context.parent old tree top)
    (hframes : ContextLayout mem context hole)
    (hnodup : (inorder old ++ context.labels).Nodup)
    (hinorder : inorder tree = inorder old) :
    Fixable (mem'.attach (holeLink context) (some top)) context tree ∧
      ∀ x, x ∉ inorder old ++ context.labels →
        mem'.attach (holeLink context) (some top) x = mem x := by
  constructor
  · rw [← h.root]
    exact Fixable.attach hframes hnodup (hinorder ▸ List.Sublist.refl _) h.layout
      h.outside
  · intro x hx
    simp only [List.mem_append, not_or] at hx
    rw [attach_other _ hx.2, h.outside x hx.1]

theorem avlFixStep_node
    (hstale : NodeAt mem context.parent .left p left right)
    (hframes : ContextLayout mem context (some p))
    (hnodup : (inorder (.node p left right) ++ context.labels).Nodup) :
    ∃ mem' top, avlFixStep mem p = some (mem', top) ∧
      Fixable mem' context (rebalance p left right) ∧
      rootLabel (rebalance p left right) = some top ∧
      ∀ x, x ∉ inorder (.node p left right) ++ context.labels →
        mem' x = mem x := by
  obtain ⟨hnode, _, hdisjoint⟩ := List.nodup_append'.mp hnodup
  obtain ⟨hpleft, hpright, _⟩ := (nodup_inorder_sideNode .left).mp hnode
  have hplabels : p ∉ context.labels := hdisjoint (by simp [inorder])
  have hlink := owningLink_eq hframes hstale.parentLink hplabels
  have hother : ∀ x, x ≠ p → avlUpdate mem p x = mem x :=
    fun x hx => avlUpdate_other mem hx
  have hlayout : Layout (avlUpdate mem p) context.parent
      (.node p left right) := hstale.update hpleft hpright
  have hupdated : NodeAt (avlUpdate mem p) context.parent .left p left right :=
    Layout.nodeAt hlayout
  have hframes' : ContextLayout (avlUpdate mem p) context (some p) :=
    hframes.congr fun x hx => hother x fun heq => hplabels (heq ▸ hx)
  have hleft : avlHeight (avlUpdate mem p) (avlUpdate mem p p).left =
      left.height := by
    rw [show (avlUpdate mem p p).left = rootLabel left from
      hupdated.nearLink, hupdated.nearLayout.avlHeight_eq]
  have hright : avlHeight (avlUpdate mem p) (avlUpdate mem p p).right =
      right.height := by
    rw [show (avlUpdate mem p p).right = rootLabel right from
      hupdated.farLink, hupdated.farLayout.avlHeight_eq]
  have houtside : ∀ x, x ∉ inorder (.node p left right) ++ context.labels →
      avlUpdate mem p x = mem x :=
    fun x hx => hother x fun heq => hx (by simp [inorder, heq])
  by_cases htall : left.height = right.height + 2
  · obtain ⟨mem', top, hfix, hbuilt⟩ := avlFixSide_spec hupdated hnode htall
    obtain ⟨hfixable, hsame⟩ :=
      hbuilt.attach hframes' hnodup (inorder_fixSide .left p left right)
    rw [rebalance, if_pos htall]
    refine ⟨_, top, ?_, hfixable, hbuilt.root,
      fun x hx => (hsame x hx).trans (houtside x hx)⟩
    simp [avlFixStep, hlink, hleft, hright, htall, avlFixLeft, hfix]
  · by_cases hshort : left.height + 2 = right.height
    · obtain ⟨mem', top, hfix, hbuilt⟩ :
          ∃ mem' top, avlFixSide .right (avlUpdate mem p) p =
            some (mem', top) ∧ Rebuilt (avlUpdate mem p) mem' context.parent
              (.node p left right) (fixSide .right p right left) top :=
        avlFixSide_spec hupdated.flip hnode hshort.symm
      obtain ⟨hfixable, hsame⟩ :=
        hbuilt.attach hframes' hnodup (inorder_fixSide .right p right left)
      rw [rebalance, if_neg htall, if_pos hshort]
      refine ⟨_, top, ?_, hfixable, hbuilt.root,
        fun x hx => (hsame x hx).trans (houtside x hx)⟩
      simp only [avlFixStep, avlUpdateFit_some, hlink, hleft, hright, if_neg htall,
        if_pos hshort, avlFixRight, hfix, Option.bind_eq_bind, Option.bind_some]
    · rw [rebalance, if_neg htall, if_neg hshort]
      refine ⟨avlUpdate mem p, p, ?_, ⟨hlayout, hframes', hnodup⟩, rfl, houtside⟩
      simp only [avlFixStep, avlUpdateFit_some, hleft, hright, if_neg htall,
        if_neg hshort, Option.bind_eq_bind, Option.bind_some]

theorem avlFixStep_spec {frame : Frame Ptr} {tree : BinaryTree Ptr}
    (h : Fixable mem (frame :: context) tree) :
    ∃ mem' top, avlFixStep mem frame.label = some (mem', top) ∧
      Fixable mem' context (frame.refill tree) ∧
      rootLabel (frame.refill tree) = some top ∧
      ∀ x, x ∉ inorder (Context.plug (frame :: context) tree) →
        mem' x = mem x := by
  have hperm : (inorder (Context.plug (frame :: context) tree)).Perm
      (inorder (frame.fill tree) ++ context.labels) :=
    Context.inorder_plug_perm context (frame.fill tree)
  have hnodup : (inorder (frame.fill tree) ++ context.labels).Nodup :=
    hperm.nodup_iff.mp
      ((Context.inorder_plug_perm (frame :: context) tree).nodup_iff.mpr h.nodup)
  have hnode := h.nodeAt
  have hrest := h.frames.2.2.2.2
  simp only [hperm.mem_iff]
  rcases frame with ⟨side, label, sibling⟩
  cases side with
  | left => exact avlFixStep_node hnode hrest hnodup
  | right => exact avlFixStep_node hnode.flip hrest hnodup

/-- `avl_fix` reaches the root and leaves the rebalanced tree. -/
theorem avlFix_spec {fuel : Nat} {frame : Frame Ptr} {tree : BinaryTree Ptr}
    (h : Fixable mem (frame :: context) tree) (hfuel : context.length < fuel) :
    ∃ mem' root, avlFix fuel mem frame.label = some (mem', root) ∧
      Rebuilt mem mem' none (Context.plug (frame :: context) tree)
        (Context.fixUp (frame :: context) tree) root := by
  induction context generalizing mem frame tree fuel with
  | nil =>
      obtain ⟨fuel, rfl⟩ := Nat.exists_eq_succ_of_ne_zero (by omega : fuel ≠ 0)
      obtain ⟨mem', top, hstep, hfixable, hroot, houtside⟩ := avlFixStep_spec h
      refine ⟨mem', top, ?_, hfixable.layout, hroot, houtside⟩
      simp [avlFix, hstep, h.nodeAt.parentLink, Context.parent]
  | cons outer context ih =>
      obtain ⟨fuel, rfl⟩ := Nat.exists_eq_succ_of_ne_zero (by omega : fuel ≠ 0)
      obtain ⟨mem₁, top, hstep, hfixable, hroot, houtside⟩ := avlFixStep_spec h
      obtain ⟨mem', root, hfix, hbuilt⟩ := ih hfixable (by simpa using hfuel)
      refine ⟨mem', root, ?_, hbuilt.layout, hbuilt.root, ?_⟩
      · simp [avlFix, hstep, h.nodeAt.parentLink, Context.parent, hfix]
      · intro x hx
        have hsame : inorder (Context.plug (outer :: context)
            (frame.refill tree)) =
            inorder (Context.plug (frame :: outer :: context) tree) := by
          rw [Context.plug_cons frame, Context.inorder_plug,
            Context.inorder_plug, Frame.inorder_refill, Frame.inorder_fill]
        rw [hbuilt.outside x (by rwa [hsame]), houtside x hx]

structure Inserted (mem mem' : AVLMem) (p : Ptr) (context : Context Ptr)
    (after : BinaryTree Ptr) : Prop where
  layout : Layout mem' none after
  balanced : HeightBalanced after
  inorder_eq : inorder after = context.before ++ p :: context.after
  outside : ∀ x, x ≠ p → x ∉ inorder (context.plug .nil) → mem' x = mem x

theorem link_fixable (h : Layout mem none (context.plug .nil))
    (hnodup : (inorder (context.plug .nil)).Nodup)
    (hp : p ∉ inorder (context.plug .nil)) (hinit : mem p = avlInit) :
    Fixable (mem.link (holeLink context) p) (⟨.left, p, .nil⟩ :: context)
      .nil := by
  obtain ⟨_, hframes, hlabels⟩ := h.fixable context hnodup
  rw [(Context.inorder_plug_perm _ _).mem_iff] at hp
  simp only [inorder, List.nil_append] at hp hlabels
  have hcell : mem.link (holeLink context) p p =
      { avlInit with parent := context.parent } := by
    rw [AVLMem.link, AVLMem.setParent_apply, if_pos rfl, attach_other _ hp,
      hinit]
    cases context <;> rfl
  have hframes' : ContextLayout (mem.link (holeLink context) p) context
      (some p) := by
    have hattached : ContextLayout (mem.attach (holeLink context) (some p))
        context (some p) := hframes.attach (fun _ _ => rfl) hlabels
    apply hattached.congr
    intro x hx
    rw [AVLMem.link, AVLMem.setParent_apply,
      if_neg fun heq : x = p => hp (heq ▸ hx)]
  refine ⟨trivial, ⟨?_, ?_, ?_, trivial, hframes'⟩, ?_⟩
  · rw [hcell]
  · rw [hcell]
    rfl
  · rw [hcell]
    rfl
  · simp [inorder, Context.labels, hp, hlabels]

theorem avlLink_spec {fuel : Nat} (h : Layout mem none (context.plug .nil))
    (hnodup : (inorder (context.plug .nil)).Nodup)
    (hbalanced : HeightBalanced (context.plug .nil))
    (hp : p ∉ inorder (context.plug .nil)) (hinit : mem p = avlInit)
    (hfuel : context.length < fuel) :
    ∃ mem' root after, avlFix fuel (mem.link (holeLink context) p) p =
        some (mem', root) ∧ rootLabel after = some root ∧
      Inserted mem mem' p context after := by
  obtain ⟨mem', root, hfix, hbuilt⟩ :=
    avlFix_spec (link_fixable h hnodup hp hinit) hfuel
  refine ⟨mem', root, _, hfix, hbuilt.root, hbuilt.layout, ?_, ?_, ?_⟩
  · apply context.balanced_fixUp hbalanced
    · simp [Frame.refill, rebalance, HeightBalanced]
    · simp [Frame.refill, rebalance, Near]
  · rw [Context.inorder_fixUp]
    simp [inorder, Context.before, Context.after, Frame.before, Frame.after]
  · intro x hxp hx
    rw [hbuilt.outside x]
    · rw [AVLMem.link, AVLMem.setParent_apply, if_neg hxp]
      rw [(Context.inorder_plug_perm _ _).mem_iff, List.mem_append,
        not_or] at hx
      exact attach_other _ hx.2
    · rw [(Context.inorder_plug_perm _ _).mem_iff, List.mem_append,
        not_or] at hx ⊢
      simpa [inorder, Context.labels, hxp] using hx.2

end MiniRedis.Ds
