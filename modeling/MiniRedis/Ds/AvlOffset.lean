import MiniRedis.Ds.AvlRuns

namespace MiniRedis.Ds

open MiniRedis.Data

variable {mem : AVLMem} {parent : Option Ptr} {p : Ptr}

/-! Rank walks: `avl_offset` climbs until the target is below and then
descends to it. -/

def nth (nodes : List α) (index : Int) : Option α :=
  if index < 0 then none else nodes[index.toNat]?

def rootRank : BinaryTree α → Nat
  | .nil => 0
  | .node _ left _ => left.numNodes

theorem checkedInt64_of_rank {value : Int} (hlow : -2 ^ 33 < value)
    (hhigh : value < 2 ^ 33) : checkedInt64 value = some value := by
  apply checkedInt64_eq_some
  · unfold int64Min
    omega
  · unfold int64Max
    omega

structure Sized (mem : AVLMem) (p : Ptr) (left right : BinaryTree Ptr) :
    Prop where
  leftLink : (mem p).left = rootLabel left
  rightLink : (mem p).right = rootLabel right
  leftCnt : avlCnt mem (mem p).left = left.numNodes
  rightCnt : avlCnt mem (mem p).right = right.numNodes
  leftStep : (avlCnt mem (mem p).left + 1) % 2 ^ 32 = left.numNodes + 1
  rightStep : (avlCnt mem (mem p).right + 1) % 2 ^ 32 = right.numNodes + 1

theorem Layout.sized {left right : BinaryTree Ptr}
    (h : Layout mem parent (.node p left right))
    (hbound : (BinaryTree.node p left right).numNodes < 2 ^ 32) :
    Sized mem p left right := by
  have hnode : NodeAt mem parent .left p left right := Layout.nodeAt h
  have hleft : (mem p).left = rootLabel left := hnode.nearLink
  have hright : (mem p).right = rootLabel right := hnode.farLink
  simp only [BinaryTree.numNodes] at hbound
  have hleftCnt : avlCnt mem (mem p).left = left.numNodes := by
    rw [hleft, hnode.nearLayout.avlCnt_eq, Nat.mod_eq_of_lt (by omega)]
  have hrightCnt : avlCnt mem (mem p).right = right.numNodes := by
    rw [hright, hnode.farLayout.avlCnt_eq, Nat.mod_eq_of_lt (by omega)]
  exact ⟨hleft, hright, hleftCnt, hrightCnt,
    by rw [hleftCnt, Nat.mod_eq_of_lt (by omega)],
    by rw [hrightCnt, Nat.mod_eq_of_lt (by omega)]⟩

theorem step_right (pos offset : Int) {left right : BinaryTree Ptr} {c : Ptr}
    {below above : BinaryTree Ptr} (h : Sized mem p left right)
    (hchild : Sized mem c below above) (hright : rootLabel right = some c)
    (hlt : pos < offset) (hreach : offset ≤ pos + right.numNodes)
    (hlow : -2 ^ 32 < pos) (hhigh : pos + right.numNodes < 2 ^ 32)
    (hsize : below.numNodes < right.numNodes) :
    avlOffsetStep mem offset p pos =
      some (some (c, pos + (below.numNodes + 1 : Nat))) := by
  rw [avlOffsetStep, if_pos hlt, h.rightCnt,
    checkedInt64_of_rank (by omega) (by omega), h.rightLink, hright]
  simp only [Option.bind_eq_bind, Option.bind_some, if_pos hreach,
    hchild.leftStep]
  rw [checkedInt64_of_rank (by omega) (by omega), Option.bind_some]

theorem step_left (pos offset : Int) {left right : BinaryTree Ptr} {c : Ptr}
    {below above : BinaryTree Ptr} (h : Sized mem p left right)
    (hchild : Sized mem c below above) (hleft : rootLabel left = some c)
    (hgt : offset < pos) (hreach : pos - left.numNodes ≤ offset)
    (hlow : -2 ^ 32 < pos - left.numNodes) (hhigh : pos < 2 ^ 32)
    (hsize : above.numNodes < left.numNodes) :
    avlOffsetStep mem offset p pos =
      some (some (c, pos - (above.numNodes + 1 : Nat))) := by
  rw [avlOffsetStep, if_neg (by omega), h.leftCnt,
    checkedInt64_of_rank (by omega) (by omega), h.leftLink, hleft]
  simp only [Option.bind_eq_bind, Option.bind_some, if_pos hreach,
    hchild.rightStep]
  rw [checkedInt64_of_rank (by omega) (by omega), Option.bind_some]

theorem loop_step {fuel : Nat} {pos pos' offset : Int} {q : Ptr}
    (hne : offset ≠ pos)
    (hstep : avlOffsetStep mem offset p pos = some (some (q, pos'))) :
    avlOffsetLoop mem offset (fuel + 1) p pos =
      avlOffsetLoop mem offset fuel q pos' := by
  rw [avlOffsetLoop, if_neg hne, hstep]
  rfl

/-- With the target inside the subtree the walk only descends.  `base` is the
relative rank of the subtree's first node. -/
theorem avlOffsetLoop_descend (fuel : Nat) {tree : BinaryTree Ptr}
    {pos offset : Int} (base : Int) (index : Nat) (h : Layout mem parent tree)
    (hroot : rootLabel tree = some p) (hpos : pos = base + rootRank tree)
    (hlow : -2 ^ 32 < base) (hhigh : base + tree.numNodes < 2 ^ 32)
    (hsize : tree.numNodes < 2 ^ 32) (htarget : offset = base + index)
    (hindex : index < tree.numNodes) (hfuel : tree.numNodes ≤ fuel) :
    avlOffsetLoop mem offset fuel p pos = some (inorder tree)[index]? := by
  induction tree generalizing p parent pos base index fuel with
  | nil => simp at hindex
  | node q left right ihLeft ihRight =>
      cases hroot
      have hsized := Layout.sized h hsize
      obtain ⟨_, hleft, hright⟩ := h
      simp only [BinaryTree.numNodes] at hsize hindex hfuel hhigh
      simp only [rootRank] at hpos
      obtain ⟨fuel, rfl⟩ :=
        Nat.exists_eq_succ_of_ne_zero (by omega : fuel ≠ 0)
      have hlength : (inorder left).length = left.numNodes :=
        length_inorder left
      have horder : inorder (.node q left right) =
          inorder left ++ q :: inorder right := rfl
      rw [horder]
      rcases Nat.lt_trichotomy index left.numNodes with hlt | heq | hgt
      · cases left with
        | nil => simp at hlt
        | node c below above =>
            have hcount : (BinaryTree.node c below above).numNodes =
                below.numNodes + above.numNodes + 1 := rfl
            have hchild := Layout.sized hleft (by omega)
            have hstep := step_left pos offset hsized hchild rfl (by omega)
              (by omega) (by omega) (by omega) (by omega)
            have hrank : pos - (above.numNodes + 1 : Nat) =
                base + rootRank (.node c below above) := by
              rw [rootRank]
              omega
            rw [loop_step (by omega) hstep, ihLeft fuel base index hleft rfl
              hrank hlow (by omega) (by omega) htarget hlt (by omega),
              List.getElem?_append_left (by omega)]
      · rw [avlOffsetLoop, if_pos (by omega),
          List.getElem?_append_right (by omega), hlength, heq, Nat.sub_self,
          List.getElem?_cons_zero]
      · cases right with
        | nil =>
            simp only [BinaryTree.numNodes] at hindex
            omega
        | node c below above =>
            have hcount : (BinaryTree.node c below above).numNodes =
                below.numNodes + above.numNodes + 1 := rfl
            have hchild := Layout.sized hright (by omega)
            have hstep := step_right pos offset hsized hchild rfl (by omega)
              (by omega) (by omega) (by omega) (by omega)
            obtain ⟨rest, hrest⟩ := Nat.exists_eq_add_of_lt hgt
            have hrank : pos + (below.numNodes + 1 : Nat) =
                base + left.numNodes + 1 + rootRank (.node c below above) := by
              rw [rootRank]
              omega
            rw [loop_step (by omega) hstep, ihRight fuel
              (base + left.numNodes + 1) rest hright rfl hrank (by omega)
              (by omega) (by omega) (by omega) (by omega) (by omega),
              List.getElem?_append_right (by omega), hlength, hrest,
              show left.numNodes + rest + 1 - left.numNodes = rest + 1 by omega,
              List.getElem?_cons_succ]

theorem climb_eq {context : Context Ptr} {left right : BinaryTree Ptr}
    {pos : Int} (h : Fixable mem context (.node p left right))
    (hsized : Sized mem p left right) (hlow : -2 ^ 32 < pos - left.numNodes)
    (hhigh : pos + right.numNodes < 2 ^ 32) :
    avlClimb mem p pos = some (match context with
      | [] => none
      | ⟨.left, parent, _⟩ :: _ =>
          some (parent, pos + (right.numNodes + 1 : Nat))
      | ⟨.right, parent, _⟩ :: _ =>
          some (parent, pos - (left.numNodes + 1 : Nat))) := by
  have hparent : (mem p).parent = context.parent := by
    have hnode : NodeAt mem context.parent .left p left right :=
      Layout.nodeAt h.layout
    exact hnode.parentLink
  cases context with
  | nil => simp [avlClimb, hparent, Context.parent]
  | cons frame context =>
      obtain ⟨_, hhole, hlink, _⟩ := h.frames
      have hp : p ∉ inorder frame.sibling := by
        have hdisjoint := (List.nodup_append'.mp h.nodup).2.2
        have hlabels : p ∉ Context.labels (frame :: context) :=
          hdisjoint (by simp [inorder])
        exact fun hmem => hlabels (by simp [Context.labels, hmem])
      rcases frame with ⟨side, label, sibling⟩
      cases side with
      | left =>
          have hne : (mem label).right ≠ some p := by
            rw [show (mem label).right = rootLabel sibling from hlink]
            exact rootLabel_ne hp
          simp only [avlClimb, hparent, Context.parent, if_neg hne,
            hsized.rightStep]
          rw [checkedInt64_of_rank (by omega) (by omega)]
          rfl
      | right =>
          have heq : (mem label).right = some p := hhole
          simp only [avlClimb, hparent, Context.parent, if_pos heq,
            hsized.leftStep]
          rw [checkedInt64_of_rank (by omega) (by omega)]
          rfl

theorem step_climb {left right : BinaryTree Ptr} {pos offset : Int}
    (h : Sized mem p left right) (hlow : -2 ^ 32 < pos - left.numNodes)
    (hhigh : pos + right.numNodes < 2 ^ 32)
    (houtside : offset < pos - left.numNodes ∨
      pos + right.numNodes < offset) :
    avlOffsetStep mem offset p pos = avlClimb mem p pos := by
  rcases houtside with hbelow | habove
  · rw [avlOffsetStep, if_neg (by omega), h.leftCnt,
      checkedInt64_of_rank (by omega) (by omega)]
    simp only [Option.bind_eq_bind, Option.bind_some]
    rw [if_neg (by omega)]
  · rw [avlOffsetStep, if_pos (by omega), h.rightCnt,
      checkedInt64_of_rank (by omega) (by omega)]
    simp only [Option.bind_eq_bind, Option.bind_some]
    rw [if_neg (by omega)]

theorem nth_plug (context : Context Ptr) (tree : BinaryTree Ptr)
    {target : Int} (index : Nat)
    (htarget : target = context.before.length + index)
    (hindex : index < tree.numNodes) :
    nth (inorder (context.plug tree)) target = (inorder tree)[index]? := by
  have hlength : (inorder tree).length = tree.numNodes := length_inorder tree
  rw [nth, if_neg (by omega), Context.inorder_plug, List.append_assoc,
    List.getElem?_append_right (by omega), List.getElem?_append_left (by omega)]
  congr 1
  omega

theorem nth_outside {nodes : List Ptr} {target : Int}
    (h : target < 0 ∨ (nodes.length : Int) ≤ target) :
    nth nodes target = none := by
  unfold nth
  split
  · rfl
  · exact List.getElem?_eq_none (by omega)

theorem numNodes_plug (context : Context Ptr) (tree : BinaryTree Ptr) :
    (context.plug tree).numNodes =
      context.before.length + tree.numNodes + context.after.length := by
  rw [← length_inorder, Context.inorder_plug, List.length_append,
    List.length_append, length_inorder]

/-- A walk in progress: it stands at the root of a subtree, and `start` is the
in-order position that relative ranks count from. -/
structure Walk (mem : AVLMem) (context : Context Ptr) (tree : BinaryTree Ptr)
    (start : Nat) (p : Ptr) (pos : Int) : Prop where
  layout : Layout mem none (context.plug tree)
  nodup : (inorder (context.plug tree)).Nodup
  size : (context.plug tree).numNodes < 2 ^ 32
  bound : start < (context.plug tree).numNodes
  root : rootLabel tree = some p
  rank : pos = context.before.length + rootRank tree - start

theorem Walk.inside {fuel : Nat} {context : Context Ptr}
    {tree : BinaryTree Ptr} {start : Nat} {pos offset : Int}
    (h : Walk mem context tree start p pos)
    (hlow : (context.before.length : Int) ≤ start + offset)
    (hhigh : start + offset < context.before.length + tree.numNodes)
    (hfuel : tree.numNodes ≤ fuel) :
    avlOffsetLoop mem offset fuel p pos =
      some (nth (inorder (context.plug tree)) (start + offset)) := by
  have hsize := h.size
  have hbound := h.bound
  have hrank := h.rank
  rw [numNodes_plug] at hsize hbound
  obtain ⟨index, hindex⟩ := Int.eq_ofNat_of_zero_le (sub_nonneg.mpr hlow)
  rw [nth_plug context tree index (by omega) (by omega)]
  exact avlOffsetLoop_descend fuel (context.before.length - start) index
    (Layout.frames context h.layout).1 h.root (by omega) (by omega) (by omega)
    (by omega) (by omega) (by omega) hfuel

theorem Walk.outside {context : Context Ptr} {tree : BinaryTree Ptr}
    {start : Nat} {pos : Int} (offset : Int)
    (h : Walk mem context tree start p pos)
    (hout : start + offset < context.before.length ∨
      (context.before.length + tree.numNodes : Int) ≤ start + offset) :
    offset ≠ pos ∧
    match context with
    | [] => avlOffsetStep mem offset p pos = some none
    | frame :: context => ∃ pos',
        avlOffsetStep mem offset p pos = some (some (frame.label, pos')) ∧
        Walk mem context (frame.fill tree) start frame.label pos' := by
  obtain ⟨hlayout, hnodup, hsize, hbound, hroot, hrank⟩ := h
  cases tree with
  | nil => simp [rootLabel] at hroot
  | node _ left right =>
      cases hroot
      have htotal := numNodes_plug context (.node p left right)
      have hcount : (BinaryTree.node p left right).numNodes =
          left.numNodes + right.numNodes + 1 := rfl
      simp only [rootRank] at hrank
      have hfixable := hlayout.fixable context hnodup
      have hsized := Layout.sized hfixable.layout (by omega)
      have hstep := step_climb hsized (by omega) (by omega) (by omega :
        offset < pos - left.numNodes ∨ pos + right.numNodes < offset)
      rw [climb_eq hfixable hsized (by omega) (by omega)] at hstep
      refine ⟨by omega, ?_⟩
      cases context with
      | nil => exact hstep
      | cons frame context =>
          have hwalk : ∀ pos' : Int, pos' = (Context.before context).length +
              rootRank (frame.fill (.node p left right)) - start →
              Walk mem context (frame.fill (.node p left right)) start
                frame.label pos' := by
            intro pos' hpos'
            exact ⟨hlayout, hnodup, hsize, hbound,
              rootLabel_sideNode _ _ _ _, hpos'⟩
          rcases frame with ⟨side, label, sibling⟩
          have hsibling := length_inorder sibling
          cases side with
          | left =>
              refine ⟨_, hstep, hwalk _ ?_⟩
              simp only [Context.before, Frame.before, List.append_nil,
                Frame.fill, sideNode, rootRank] at hrank ⊢
              omega
          | right =>
              refine ⟨_, hstep, hwalk _ ?_⟩
              simp only [Context.before, Frame.before, List.length_append,
                List.length_singleton, Frame.fill, sideNode,
                rootRank] at hrank ⊢
              omega

theorem Walk.spec {fuel : Nat} {context : Context Ptr} {tree : BinaryTree Ptr}
    {start : Nat} {pos : Int} (offset : Int)
    (h : Walk mem context tree start p pos)
    (hfuel : context.length + (context.plug tree).numNodes < fuel) :
    avlOffsetLoop mem offset fuel p pos =
      some (nth (inorder (context.plug tree)) (start + offset)) := by
  induction context generalizing tree p pos fuel with
  | nil =>
      by_cases hin : 0 ≤ start + offset ∧ start + offset < tree.numNodes
      · exact h.inside (by simpa [Context.before] using hin.1)
          (by simpa [Context.before] using hin.2)
          (by simp only [Context.plug_nil] at hfuel; omega)
      · obtain ⟨fuel, rfl⟩ :=
          Nat.exists_eq_succ_of_ne_zero (by omega : fuel ≠ 0)
        obtain ⟨hne, hstep⟩ := h.outside offset
          (by simp only [Context.before, List.length_nil]; omega)
        rw [avlOffsetLoop, if_neg hne, hstep, nth_outside]
        · rfl
        · rw [Context.plug_nil, length_inorder]
          omega
  | cons frame context ih =>
      by_cases hin : ((Context.before (frame :: context)).length : Int) ≤
          start + offset ∧ start + offset <
            (Context.before (frame :: context)).length + tree.numNodes
      · have hsize := numNodes_plug (frame :: context) tree
        exact h.inside hin.1 hin.2 (by omega)
      · obtain ⟨fuel, rfl⟩ :=
          Nat.exists_eq_succ_of_ne_zero (by omega : fuel ≠ 0)
        obtain ⟨hne, pos', hstep, hwalk⟩ := h.outside offset
          (by omega)
        rw [loop_step hne hstep]
        exact ih hwalk (by
          simp only [List.length_cons, Context.plug_cons] at hfuel
          omega)

theorem avlOffset_spec {fuel : Nat} {tree : BinaryTree Ptr} {start : Nat}
    (h : Layout mem none tree) (hnodup : (inorder tree).Nodup)
    (hsize : tree.numNodes < 2 ^ 32) (hstart : (inorder tree)[start]? = some p)
    (offset : Int) (hfuel : 2 * tree.numNodes < fuel) :
    avlOffset fuel mem p offset =
      some (nth (inorder tree) (start + offset)) := by
  have hbound : start < (inorder tree).length := by
    by_contra hle
    rw [List.getElem?_eq_none (by omega)] at hstart
    cases hstart
  obtain ⟨context, left, right, rfl⟩ :=
    exists_plug_of_mem (List.mem_of_getElem? hstart)
  have hsplit : inorder (context.plug (.node p left right)) =
      (context.before ++ inorder left) ++ p :: (inorder right ++ context.after) := by
    simp [Context.inorder_plug, inorder]
  have hrank : start = context.before.length + left.numNodes := by
    have hmiddle : (inorder (context.plug (.node p left right)))[
        (context.before ++ inorder left).length]? = some p := by
      rw [hsplit, List.getElem?_append_right (Nat.le_refl _), Nat.sub_self]
      rfl
    have heq := (List.getElem?_inj hbound hnodup).mp (hstart.trans hmiddle.symm)
    rw [heq, List.length_append, length_inorder]
  rw [length_inorder] at hbound
  have hlength := context.length_add_numNodes_le (.node p left right)
  exact Walk.spec offset ⟨h, hnodup, hsize, hbound, rfl, by
    simp only [rootRank]; omega⟩ (by omega)

/-- The links, heights and counts of a well-formed tree, read back as a
layout. -/
theorem InorderOf.layout {link : Option Ptr} {nodes : List Ptr}
    (h : InorderOf mem link nodes) (hparent : ∀ p, link = some p →
      (mem p).parent = parent)
    (hchild : ∀ p ∈ nodes, ∀ side c, (mem p).child side = some c →
      (mem c).parent = some p)
    (hheight : ∀ p ∈ nodes, (mem p).height =
      1 + max (avlHeight mem (mem p).left) (avlHeight mem (mem p).right))
    (hcnt : ∀ p ∈ nodes, (mem p).cnt =
      1 + avlCnt mem (mem p).left + avlCnt mem (mem p).right)
    (hsize : nodes.length < 2 ^ 32) :
    ∃ tree, Layout mem parent tree ∧ rootLabel tree = link ∧
      inorder tree = nodes := by
  induction h generalizing parent with
  | null => exact ⟨.nil, trivial, rfl, rfl⟩
  | @node p before after _ _ ihBefore ihAfter =>
      rw [List.length_append, List.length_cons] at hsize
      have hself : p ∈ before ++ p :: after := by simp
      have hbefore : ∀ q ∈ before, q ∈ before ++ p :: after :=
        fun q hq => List.mem_append_left _ hq
      have hafter : ∀ q ∈ after, q ∈ before ++ p :: after :=
        fun q hq => List.mem_append_right _ (List.mem_cons_of_mem _ hq)
      obtain ⟨left, hleft, hleftRoot, hleftOrder⟩ := ihBefore
        (hchild p hself .left) (fun q hq => hchild q (hbefore q hq))
        (fun q hq => hheight q (hbefore q hq))
        (fun q hq => hcnt q (hbefore q hq)) (by omega)
      obtain ⟨right, hright, hrightRoot, hrightOrder⟩ := ihAfter
        (hchild p hself .right) (fun q hq => hchild q (hafter q hq))
        (fun q hq => hheight q (hafter q hq))
        (fun q hq => hcnt q (hafter q hq)) (by omega)
      have hleftSize : left.numNodes = before.length := by
        rw [← length_inorder, hleftOrder]
      have hrightSize : right.numNodes = after.length := by
        rw [← length_inorder, hrightOrder]
      have hcell : mem p = nodeCell parent left right := by
        have hheight := hheight p hself
        have hcnt := hcnt p hself
        rw [← hleftRoot, ← hrightRoot, hleft.avlHeight_eq,
          hright.avlHeight_eq] at hheight
        rw [← hleftRoot, ← hrightRoot, hleft.avlCnt_eq, hright.avlCnt_eq,
          Nat.mod_eq_of_lt (by omega), Nat.mod_eq_of_lt (by omega)] at hcnt
        have hfits : (1 + left.numNodes + right.numNodes) % 2 ^ 32 =
            1 + left.numNodes + right.numNodes := Nat.mod_eq_of_lt (by omega)
        rw [nodeCell, hfits, ← hheight, ← hcnt, hleftRoot, hrightRoot,
          ← hparent p rfl]
      refine ⟨.node p left right, ⟨hcell, hleft, hright⟩, rfl, ?_⟩
      rw [← hleftOrder, ← hrightOrder]
      rfl

/-- In a well-formed tree `avl_offset` returns the node `offset` positions
after `p` in order, or null if there is none, and no step of it overflows. -/
theorem avl_offset_by_rank {root : Option Ptr} {nodes : List Ptr}
    (h : AvlWellFormed mem root nodes) (hsize : nodes.length < 2 ^ 32)
    {i : Nat} (hi : nodes[i]? = some p) (offset : Int) {fuel : Nat}
    (hfuel : 2 * nodes.length < fuel) :
    avlOffset fuel mem p offset = some
      (if 0 ≤ i + offset ∧ i + offset < nodes.length then
        nodes[(i + offset).toNat]? else none) := by
  obtain ⟨tree, hlayout, _, rfl⟩ := h.order.layout h.rootParent h.childParent
    h.height h.cnt hsize
  rw [length_inorder] at hsize hfuel
  rw [avlOffset_spec hlayout h.distinct hsize hi offset hfuel]
  by_cases hin : 0 ≤ i + offset ∧ i + offset < (inorder tree).length
  · rw [if_pos hin, nth, if_neg (by omega)]
  · rw [if_neg hin, nth_outside (by omega)]

theorem avl_offset_by_rank_three : ∃ mem, AvlWellFormed mem (some 2) [1, 2, 3] ∧
    avlOffset 7 mem 1 2 = some (some 3) ∧ avlOffset 7 mem 3 (-2) = some (some 1) ∧
    avlOffset 7 mem 3 1 = some none := by
  obtain ⟨mem, hreach, -⟩ := exists_threeNodes
  obtain ⟨tree, htree⟩ := hreach.shape
  have hformed : AvlWellFormed mem (some 2) [1, 2, 3] := htree.wellFormed
  exact ⟨mem, hformed,
    avl_offset_by_rank hformed (by decide) (i := 0) rfl 2 (by decide),
    avl_offset_by_rank hformed (by decide) (i := 2) rfl (-2) (by decide),
    avl_offset_by_rank hformed (by decide) (i := 2) rfl 1 (by decide)⟩

end MiniRedis.Ds
