import MiniRedis.Data.Passes
import MiniRedis.Ds.ZSetRuns
import MiniRedis.Ds.ZSetWalk

namespace MiniRedis.Ds

open MiniRedis.Data MiniRedis.Store

/-! How many passes the loops over a sorted set make.  Run with `fun _ => passes`, an
operation fails if one of its loops needs more passes than that; `avl_offset`, which
climbs and descends, gets twice as many. -/

variable {zset : ZSet} {mem : AVLMem} {tree : BinaryTree Ptr} {node : Ptr}
  {passes fuel fuel' : Nat}

theorem height_le_passes (hbalanced : HeightBalanced tree)
    (hsize : tree.numNodes + 1 < Nat.fib (passes + 3)) : tree.height ≤ passes := by
  by_contra htall
  have hmono : Nat.fib (passes + 3) ≤ Nat.fib (tree.height + 2) :=
    Nat.fib_mono (by omega)
  have hfib := hbalanced.fib_le
  omega

/-! The walks down. -/

def Hangs (mem : AVLMem) (link : Option Ptr) : Prop :=
  ∃ parent tree, Layout mem parent tree ∧ link = rootLabel tree

theorem Hangs.child {p : Ptr} (h : Hangs mem (some p)) (side : Side) :
    Hangs mem ((mem p).child side) ∧
      avlHeight mem ((mem p).child side) < avlHeight mem (some p) := by
  obtain ⟨parent, tree, hlayout, hroot⟩ := h
  cases tree with
  | nil => cases hroot
  | node _ left right =>
      cases hroot
      have hheight := hlayout.avlHeight_eq
      obtain ⟨hcell, hleft, hright⟩ := hlayout
      rw [rootLabel] at hheight
      rw [hheight, BinaryTree.height, hcell]
      cases side with
      | left =>
          refine ⟨⟨_, left, hleft, rfl⟩, ?_⟩
          have hlower : avlHeight mem (rootLabel left) = left.height :=
            hleft.avlHeight_eq
          exact Nat.lt_succ_of_le (hlower ▸ Nat.le_max_left _ _)
      | right =>
          refine ⟨⟨_, right, hright, rfl⟩, ?_⟩
          have hlower : avlHeight mem (rootLabel right) = right.height :=
            hright.avlHeight_eq
          exact Nat.lt_succ_of_le (hlower ▸ Nat.le_max_right _ _)

section Walk

variable {link : Option (Ptr × Side)} {found spot : Option Ptr} {score : Double}
  {name : Bytes}

def treeWalkNext (zset : ZSet) (node : Ptr) : Option (Ptr × Side) × Option Ptr →
    Option (Option (Ptr × Side) ⊕ Option (Ptr × Side) × Option Ptr)
  | (link, none) => some (.inl link)
  | (_, some parent) =>
      let side : Side :=
        if zless (zset.node node) (zset.node parent) then .left else .right
      some (.inr (some (parent, side), (zset.tree parent).child side))

theorem treeWalk_eq_loop :
    treeWalk zset node fuel link spot =
      loop (treeWalkNext zset node) (fuel + 1) (link, spot) := by
  induction fuel generalizing link spot with
  | zero => cases spot <;> rfl
  | succ fuel ih =>
      cases spot with
      | none => rfl
      | some parent =>
          rw [treeWalk, ih]
          rfl

theorem treeWalk_passes (h : Hangs zset.tree spot)
    (hfuel : avlHeight zset.tree spot ≤ fuel)
    (hfuel' : avlHeight zset.tree spot ≤ fuel') :
    treeWalk zset node fuel link spot = treeWalk zset node fuel' link spot := by
  rw [treeWalk_eq_loop, treeWalk_eq_loop]
  refine loop_eq_of_left (fun n s => Hangs zset.tree s.2 ∧ avlHeight zset.tree s.2 ≤ n)
    ?_ ⟨h, Nat.le_refl _⟩ (Nat.lt_succ_of_le hfuel) (Nat.lt_succ_of_le hfuel')
  rintro n ⟨link, _ | parent⟩ s' ⟨hhangs, hle⟩ hnext
  · cases hnext
  · cases hnext
    obtain ⟨hchild, hlower⟩ := hhangs.child
      (if zless (zset.node node) (zset.node parent) then .left else .right)
    exact ⟨_, Nat.lt_of_lt_of_le hlower hle, hchild, Nat.le_refl _⟩

def seekgeNext (zset : ZSet) (score : Double) (name : Bytes) :
    Option Ptr × Option Ptr → Option (Option Ptr ⊕ Option Ptr × Option Ptr)
  | (found, none) => some (.inl found)
  | (found, some node) =>
      if zlessKey (zset.node node) score name then
        some (.inr (found, (zset.tree node).right))
      else
        some (.inr (some node, (zset.tree node).left))

theorem seekge_eq_loop :
    seekge zset score name fuel found spot =
      loop (seekgeNext zset score name) (fuel + 1) (found, spot) := by
  induction fuel generalizing found spot with
  | zero =>
      cases spot with
      | none => rfl
      | some node =>
          rw [seekge, loop, seekgeNext]
          split <;> rfl
  | succ fuel ih =>
      cases spot with
      | none => rfl
      | some node =>
          rw [seekge, loop, seekgeNext]
          split
          · exact ih
          · exact ih

theorem seekge_passes (h : Hangs zset.tree spot)
    (hfuel : avlHeight zset.tree spot ≤ fuel)
    (hfuel' : avlHeight zset.tree spot ≤ fuel') :
    seekge zset score name fuel found spot = seekge zset score name fuel' found spot := by
  rw [seekge_eq_loop, seekge_eq_loop]
  refine loop_eq_of_left (fun n s => Hangs zset.tree s.2 ∧ avlHeight zset.tree s.2 ≤ n)
    ?_ ⟨h, Nat.le_refl _⟩ (Nat.lt_succ_of_le hfuel) (Nat.lt_succ_of_le hfuel')
  rintro n ⟨found, _ | node⟩ s' ⟨hhangs, hle⟩ hnext
  · cases hnext
  · rw [seekgeNext] at hnext
    split at hnext
    next =>
      cases hnext
      obtain ⟨hchild, hlower⟩ := hhangs.child .right
      exact ⟨_, Nat.lt_of_lt_of_le hlower hle, hchild, Nat.le_refl _⟩
    next =>
      cases hnext
      obtain ⟨hchild, hlower⟩ := hhangs.child .left
      exact ⟨_, Nat.lt_of_lt_of_le hlower hle, hchild, Nat.le_refl _⟩

theorem seekge_returns (h : Hangs zset.tree spot)
    (hfuel : avlHeight zset.tree spot ≤ fuel) :
    ∃ result, seekge zset score name fuel found spot = some result := by
  induction fuel generalizing found spot with
  | zero =>
      cases spot with
      | none => exact ⟨found, rfl⟩
      | some node =>
          have hlower := (h.child .left).2
          omega
  | succ fuel ih =>
      cases spot with
      | none => exact ⟨found, rfl⟩
      | some node =>
          obtain ⟨hleft, hless⟩ := h.child .left
          obtain ⟨hright, hless'⟩ := h.child .right
          rw [seekge]
          split
          · exact ih hright (by rw [AVLNode.child] at hless'; omega)
          · exact ih hleft (by rw [AVLNode.child] at hless; omega)

def leftmostNext (mem : AVLMem) (victim : Ptr) : Option (Ptr ⊕ Ptr) :=
  match (mem victim).left with
  | some left => some (.inr left)
  | none => some (.inl victim)

theorem leftmost_eq_loop {victim : Ptr} :
    leftmost fuel mem victim = loop (leftmostNext mem) fuel victim := by
  induction fuel generalizing victim with
  | zero => rfl
  | succ fuel ih =>
      rw [leftmost, loop, leftmostNext]
      cases (mem victim).left with
      | none => rfl
      | some left => exact ih

theorem leftmost_passes {victim : Ptr} (h : Hangs mem (some victim))
    (hfuel : avlHeight mem (some victim) < fuel)
    (hfuel' : avlHeight mem (some victim) < fuel') :
    leftmost fuel mem victim = leftmost fuel' mem victim := by
  rw [leftmost_eq_loop, leftmost_eq_loop]
  refine loop_eq_of_left (fun n p => Hangs mem (some p) ∧ avlHeight mem (some p) ≤ n)
    ?_ ⟨h, Nat.le_refl _⟩ hfuel hfuel'
  rintro n p s' ⟨hhangs, hle⟩ hnext
  obtain ⟨hchild, hlower⟩ := hhangs.child .left
  rw [leftmostNext] at hnext
  cases hleft : (mem p).left with
  | none =>
      rw [hleft] at hnext
      cases hnext
  | some left =>
      rw [hleft] at hnext
      cases hnext
      rw [AVLNode.child, hleft] at hchild hlower
      exact ⟨_, Nat.lt_of_lt_of_le hlower hle, hchild, Nat.le_refl _⟩

end Walk

/-! The way up. -/

def avlFixNext : AVLMem × Ptr → Option (AVLMem × Ptr ⊕ AVLMem × Ptr)
  | (mem, node) => do
      let parent := (mem node).parent
      let (mem, top) ← avlFixStep mem node
      match parent with
      | none => some (.inl (mem, top))
      | some parent => some (.inr (mem, parent))

theorem avlFix_eq_loop : avlFix fuel mem node = loop avlFixNext fuel (mem, node) := by
  induction fuel generalizing mem node with
  | zero => rfl
  | succ fuel ih =>
      rw [avlFix, loop, avlFixNext]
      cases avlFixStep mem node with
      | none => rfl
      | some result =>
          cases (mem node).parent with
          | none => rfl
          | some parent => exact ih

theorem avlFix_mono {result : AVLMem × Ptr} (h : avlFix fuel mem node = some result)
    (hle : fuel ≤ fuel') : avlFix fuel' mem node = some result := by
  rw [avlFix_eq_loop] at h ⊢
  exact loop_mono h hle

theorem avlDelEasy_mono {result : AVLMem × Option Ptr}
    (h : avlDelEasy fuel mem node = some result) (hle : fuel ≤ fuel') :
    avlDelEasy fuel' mem node = some result := by
  unfold avlDelEasy at h ⊢
  cases hparent : (mem node).parent with
  | none =>
      rw [hparent] at h
      exact h
  | some parent =>
      rw [hparent] at h
      obtain ⟨⟨tree, root⟩, hfix, h⟩ := Option.bind_eq_some_iff.mp h
      simp only [avlFix_mono hfix hle, Option.bind_eq_bind, Option.bind_some]
      exact h

section Del

variable {context : Context Ptr} {side : Side} {p : Ptr}

theorem avlDelEasy_passes {child : BinaryTree Ptr}
    (h : Layout mem none (context.plug (sideNode side p child .nil)))
    (hnodup : (inorder (context.plug (sideNode side p child .nil))).Nodup)
    (hfuel : (context.plug (sideNode side p child .nil)).height ≤ fuel)
    (hfuel' : (context.plug (sideNode side p child .nil)).height ≤ fuel') :
    avlDelEasy fuel mem p = avlDelEasy fuel' mem p := by
  have hdepth := context.length_add_height_le (sideNode side p child .nil)
  obtain ⟨mem', hdel, _⟩ := avlDelEasy_spec h hnodup (Nat.le_refl context.length)
  rw [avlDelEasy_mono hdel (by omega), avlDelEasy_mono hdel (by omega)]

theorem avlDel_two_passes {left right : BinaryTree Ptr} {l r : Ptr}
    (hleft : rootLabel left = some l) (hright : rootLabel right = some r)
    (h : Layout mem none (context.plug (.node p left right)))
    (hnodup : (inorder (context.plug (.node p left right))).Nodup)
    (hfuel : (context.plug (.node p left right)).height ≤ fuel)
    (hfuel' : (context.plug (.node p left right)).height ≤ fuel') :
    avlDel fuel mem p = avlDel fuel' mem p := by
  obtain ⟨hcell, _, hlayout⟩ := (Layout.frames context h).1
  have hl : (mem p).left = some l := by rw [hcell, ← hleft]; rfl
  have hr : (mem p).right = some r := by rw [hcell, ← hright]; rfl
  have hdepth := context.length_add_height_le (.node p left right)
  rw [BinaryTree.height] at hdepth
  have hlower : avlHeight mem (some r) = right.height := by
    rw [← hright]
    exact hlayout.avlHeight_eq
  have hcount := (context.plug (.node p left right)).height_le_numNodes
  obtain ⟨outer, first, rest, _, hfirst, hplug, _⟩ :=
    successor_spec h hright (Nat.le_refl _)
  have hhangs : Hangs mem (some r) := ⟨_, right, hlayout, hright.symm⟩
  have hwalk : ∀ fuel, (context.plug (.node p left right)).height ≤ fuel →
      leftmost fuel mem r = some first := fun fuel hfuel => by
    rw [← hfirst]
    exact leftmost_passes hhangs (by omega) (by omega)
  have heasy : avlDelEasy fuel mem first = avlDelEasy fuel' mem first := by
    rw [hplug] at h hnodup hfuel hfuel'
    exact avlDelEasy_passes h hnodup hfuel hfuel'
  simp only [avlDel, hl, hr, hwalk fuel hfuel, hwalk fuel' hfuel', heasy,
    Option.bind_eq_bind, Option.bind_some]

theorem avlDel_passes (h : Layout mem none tree) (hnodup : (inorder tree).Nodup)
    (hp : p ∈ inorder tree) (hfuel : tree.height ≤ fuel)
    (hfuel' : tree.height ≤ fuel') : avlDel fuel mem p = avlDel fuel' mem p := by
  obtain ⟨context, left, right, rfl⟩ := exists_plug_of_mem hp
  have hcell := (Layout.frames context h).1.1
  cases left with
  | nil =>
      have heasy : avlDelEasy fuel mem p = avlDelEasy fuel' mem p :=
        @avlDelEasy_passes mem fuel fuel' context .right p right h hnodup hfuel hfuel'
      simp [avlDel, hcell, nodeCell, rootLabel, heasy]
  | node l first second =>
      cases right with
      | nil =>
          have heasy : avlDelEasy fuel mem p = avlDelEasy fuel' mem p :=
            @avlDelEasy_passes mem fuel fuel' context .left p (.node l first second) h
              hnodup hfuel hfuel'
          simp [avlDel, hcell, nodeCell, rootLabel, heasy]
      | node r below above => exact avlDel_two_passes rfl rfl h hnodup hfuel hfuel'

end Del

/-! Rank walks. -/

section Offset

variable {context : Context Ptr} {p : Ptr} {start : Nat} {pos : Int}

theorem Walk.descend (offset : Int) (h : Walk mem context tree start p pos)
    (hlow : (context.before.length : Int) ≤ start + offset)
    (hhigh : start + offset < context.before.length + tree.numNodes)
    (hne : offset ≠ pos) :
    ∃ frame child q pos', avlOffsetStep mem offset p pos = some (some (q, pos')) ∧
      frame.fill child = tree ∧ Walk mem (frame :: context) child start q pos' ∧
      ((Context.before (frame :: context)).length : Int) ≤ start + offset ∧
      start + offset < (Context.before (frame :: context)).length + child.numNodes := by
  obtain ⟨hlayout, hnodup, hsize, hbound, hroot, hrank⟩ := h
  cases tree with
  | nil => cases hroot
  | node _ left right =>
      cases hroot
      have htotal := numNodes_plug context (.node p left right)
      have hcount : (BinaryTree.node p left right).numNodes =
          left.numNodes + right.numNodes + 1 := rfl
      simp only [rootRank] at hrank
      obtain ⟨hhere, hleft, hright⟩ := (Layout.frames context hlayout).1
      have hsized := Layout.sized ⟨hhere, hleft, hright⟩ (by omega)
      rcases Int.lt_or_gt_of_ne hne with hbefore | hafter
      · cases left with
        | nil =>
            have hnone : (BinaryTree.nil : BinaryTree Ptr).numNodes = 0 := rfl
            omega
        | node c below above =>
            have hinner : (BinaryTree.node c below above).numNodes =
                below.numNodes + above.numNodes + 1 := rfl
            have hstep := step_left pos offset hsized (Layout.sized hleft (by omega))
              rfl hbefore (by omega) (by omega) (by omega) (by omega)
            refine ⟨⟨.left, p, right⟩, _, c, _, hstep, rfl,
              ⟨hlayout, hnodup, hsize, hbound, rfl, ?_⟩, ?_, ?_⟩
            · simp only [Context.before, Frame.before, List.append_nil, rootRank]
              omega
            · simpa only [Context.before, Frame.before, List.append_nil] using hlow
            · simp only [Context.before, Frame.before, List.append_nil]
              omega
      · cases right with
        | nil =>
            have hnone : (BinaryTree.nil : BinaryTree Ptr).numNodes = 0 := rfl
            omega
        | node c below above =>
            have hinner : (BinaryTree.node c below above).numNodes =
                below.numNodes + above.numNodes + 1 := rfl
            have hstep := step_right pos offset hsized (Layout.sized hright (by omega))
              rfl hafter (by omega) (by omega) (by omega) (by omega)
            have hsibling := length_inorder left
            refine ⟨⟨.right, p, left⟩, _, c, _, hstep, rfl,
              ⟨hlayout, hnodup, hsize, hbound, rfl, ?_⟩, ?_, ?_⟩
            · simp only [Context.before, Frame.before, List.length_append,
                List.length_singleton, rootRank]
              omega
            · simp only [Context.before, Frame.before, List.length_append,
                List.length_singleton]
              omega
            · simp only [Context.before, Frame.before, List.length_append,
                List.length_singleton]
              omega

/-- What is left of a walk in a tree of height `height`: in the subtree of the
target the way down, and otherwise also the way up. -/
def Walking (mem : AVLMem) (height start : Nat) (offset : Int) (left : Nat)
    (state : Ptr × Int) : Prop :=
  ∃ context tree, Walk mem context tree start state.1 state.2 ∧
    (context.plug tree).height = height ∧
    (((context.before.length : Int) ≤ start + offset ∧
        start + offset < context.before.length + tree.numNodes ∧
        tree.height ≤ left + 1) ∨
      2 * height ≤ left + 1 + tree.height)

def avlOffsetNext (mem : AVLMem) (offset : Int) :
    Ptr × Int → Option (Option Ptr ⊕ Ptr × Int)
  | (node, pos) =>
      if offset = pos then
        some (.inl (some node))
      else do
        match ← avlOffsetStep mem offset node pos with
        | none => some (.inl none)
        | some (node, pos) => some (.inr (node, pos))

theorem avlOffsetLoop_eq_loop {offset : Int} :
    avlOffsetLoop mem offset fuel p pos =
      loop (avlOffsetNext mem offset) fuel (p, pos) := by
  induction fuel generalizing p pos with
  | zero => rfl
  | succ fuel ih =>
      rw [avlOffsetLoop, loop, avlOffsetNext]
      split
      next => rfl
      next =>
        cases avlOffsetStep mem offset p pos with
        | none => rfl
        | some result =>
            cases result with
            | none => rfl
            | some result => exact ih

theorem Walk.height_pos (h : Walk mem context tree start p pos) : 0 < tree.height := by
  cases tree with
  | nil => cases h.root
  | node _ left right => exact Nat.succ_pos _

theorem Walking.next {height left : Nat} {offset : Int} {state state' : Ptr × Int}
    (h : Walking mem height start offset left state)
    (hnext : avlOffsetNext mem offset state = some (.inr state')) :
    ∃ less < left, Walking mem height start offset less state' := by
  obtain ⟨context, tree, hwalk, hheight, hleft⟩ := h
  obtain ⟨p, pos⟩ := state
  rw [avlOffsetNext] at hnext
  split at hnext
  next => cases hnext
  next hne =>
    obtain ⟨result, hstep, hnext⟩ := Option.bind_eq_some_iff.mp hnext
    have hdepth := context.length_add_height_le tree
    by_cases hin : (context.before.length : Int) ≤ start + offset ∧
        start + offset < context.before.length + tree.numNodes
    · obtain ⟨frame, child, q, pos', hdown, hfill, hwalk', hlow, hhigh⟩ :=
        hwalk.descend offset hin.1 hin.2 hne
      rw [hstep] at hdown
      cases hdown
      cases hnext
      have hpos := hwalk'.height_pos
      have hlower : child.height < tree.height := by
        rw [← hfill, Frame.fill, height_sideNode]
        omega
      refine ⟨child.height - 1, ?_, frame :: context, child, hwalk', ?_,
        .inl ⟨hlow, hhigh, by omega⟩⟩
      · rcases hleft with ⟨_, _, hleft⟩ | hleft <;> omega
      · rw [Context.plug_cons, hfill]
        exact hheight
    · have hleft := hleft.resolve_left fun hinside => hin ⟨hinside.1, hinside.2.1⟩
      have hup := (hwalk.outside offset (by omega)).2
      cases context with
      | nil =>
          rw [hstep] at hup
          cases hup
          cases hnext
      | cons frame context =>
          obtain ⟨pos', hup, hwalk'⟩ := hup
          rw [hstep] at hup
          cases hup
          cases hnext
          have hhigher : tree.height < (frame.fill tree).height := by
            rw [Frame.fill, height_sideNode]
            omega
          have hdepth' := Context.length_add_height_le context (frame.fill tree)
          rw [Context.plug_cons] at hheight
          exact ⟨left - 1, by omega, context, frame.fill tree, hwalk', hheight,
            .inr (by omega)⟩

theorem avlOffset_passes (h : Layout mem none tree) (hnodup : (inorder tree).Nodup)
    (hsize : tree.numNodes < 2 ^ 32) (hp : p ∈ inorder tree) (offset : Int)
    (hfuel : 2 * tree.height ≤ fuel) (hfuel' : 2 * tree.height ≤ fuel') :
    avlOffset fuel mem p offset = avlOffset fuel' mem p offset := by
  obtain ⟨context, left, right, rfl⟩ := exists_plug_of_mem hp
  have hcount := numNodes_plug context (.node p left right)
  have hdepth := context.length_add_height_le (.node p left right)
  rw [BinaryTree.numNodes] at hcount
  rw [BinaryTree.height] at hdepth
  have hwalk : Walk mem context (.node p left right)
      (context.before.length + left.numNodes) p 0 :=
    ⟨h, hnodup, hsize, by omega, rfl, by simp only [rootRank]; omega⟩
  have hwalking : Walking mem (context.plug (.node p left right)).height
      (context.before.length + left.numNodes) offset
      (2 * (context.plug (.node p left right)).height - 1) (p, 0) :=
    ⟨context, _, hwalk, rfl, .inr (by omega)⟩
  rw [avlOffset, avlOffset, avlOffsetLoop_eq_loop, avlOffsetLoop_eq_loop]
  exact loop_eq_of_left _ (fun _ _ _ h hnext => h.next hnext) hwalking (by omega)
    (by omega)

end Offset

/-! The operations. -/

theorem treeInsert_passes (h : zset.Pending tree node)
    (hheight : tree.height ≤ passes) :
    treeInsert zset node (fun _ => passes) = treeInsert zset node := by
  obtain ⟨hfresh, hnodup⟩ := List.nodup_cons.mp h.nodup
  have hsize := length_le_of_bound h.nodup h.bound
  rw [List.length_cons, length_inorder] at hsize
  have hcount := tree.height_le_numNodes
  have hstored : avlHeight zset.tree zset.root = tree.height := by
    rw [h.root, h.layout.avlHeight_eq]
  have hhangs : Hangs zset.tree zset.root := ⟨none, tree, h.layout, h.root⟩
  obtain ⟨context, rfl, hwalk, _⟩ := h.hole
  have hdepth := context.length_add_height_le .nil
  obtain ⟨mem, root, _, hfix, _⟩ := avlLink_spec h.layout hnodup h.balanced hfresh h.init
    (Nat.lt_succ_self context.length)
  have hshort : treeWalk zset node passes none zset.root = some (holeLink context) := by
    rw [← hwalk]
    exact treeWalk_passes hhangs (by omega) (by omega)
  simp only [treeInsert, hshort, hwalk, Option.bind_eq_bind,
    Option.bind_some]
  rw [avlFix_mono hfix (by omega), avlFix_mono hfix (by omega)]

section Operations

variable {score : Double} {name : Bytes}

theorem zsetUpdate_passes (h : zset.Inv tree) (hnode : node ∈ inorder tree)
    (hscore : score.isNaN = false) (hsize : tree.numNodes + 1 < Nat.fib (passes + 3)) :
    zsetUpdate zset node score (fun _ => passes) = zsetUpdate zset node score := by
  have hheight := height_le_passes h.balanced hsize
  have hcount := tree.height_le_numNodes
  have hbound := h.numNodes_le
  unfold zsetUpdate
  split
  next => rfl
  next =>
    obtain ⟨mem, after, hdel, hlayout, hbalanced, hsorted, hperm, hgone⟩ :=
      h.detach hnode
    have hpending := h.rescore_pending hlayout hbalanced hsorted hperm hgone hscore
    have hless : after.numNodes + 1 = tree.numNodes := by
      rw [← length_inorder, ← length_inorder, hperm.length_eq, List.length_cons]
    have hlower : after.height ≤ passes := height_le_passes hbalanced (by omega)
    rw [avlDel_passes h.layout h.sorted.nodup hnode hheight
      (show tree.height ≤ zset.alloc by omega), hdel]
    exact treeInsert_passes hpending hlower

theorem zsetCreate_passes (h : zset.Inv tree)
    (hmiss : ∀ p ∈ zset.hmap.nodes, (zset.node p).name ≠ name)
    (hscore : score.isNaN = false) (hsize : tree.numNodes + 1 < Nat.fib (passes + 3)) :
    zsetCreate zset name score (fun _ => passes) = zsetCreate zset name score := by
  obtain ⟨hmap, hinsert, hpending⟩ := h.create hmiss hscore
  have hinsert' : hmInsert (znodeNew zset name score).1.hcode
      (znodeNew zset name score).1.hmap (znodeNew zset name score).2 = some hmap :=
    hinsert
  simp only [zsetCreate, hinsert', Option.bind_eq_bind, Option.bind_some]
  exact treeInsert_passes hpending (height_le_passes h.balanced hsize)

theorem zsetInsert_passes {scores : Bytes → Option Int} (h : zset.Maps scores)
    (hscore : score.isNaN = false)
    (hsize : zset.hmap.nodes.length + 1 < Nat.fib (passes + 3)) :
    zsetInsert zset name score (fun _ => passes) = zsetInsert zset name score := by
  obtain ⟨hmap, found, hlookup, hmaps, hperm, hfound⟩ := zsetLookup_spec h name
  obtain ⟨tree, htree⟩ := hmaps.inv
  have hcount : tree.numNodes = zset.hmap.nodes.length := by
    rw [← length_inorder, ← htree.same.length_eq]
    exact hperm.length_eq
  have hfits : tree.numNodes + 1 < Nat.fib (passes + 3) := by
    rw [hcount]
    exact hsize
  simp only [zsetInsert, hlookup, Option.bind_eq_bind, Option.bind_some]
  cases found with
  | some node =>
      obtain ⟨hnode, _⟩ := (hfound node).mp rfl
      have hin := htree.same.mem_iff.mp (hperm.mem_iff.mpr hnode)
      simp only [zsetUpdate_passes htree hin hscore hfits]
  | none =>
      have hmiss : ∀ p ∈ hmap.nodes, (zset.node p).name ≠ name := by
        intro p hp hname
        cases (hfound p).mpr ⟨hperm.mem_iff.mp hp, hname⟩
      simp only [zsetCreate_passes htree hmiss hscore hfits]

end Operations

/-- No loop over a sorted set makes more passes than the height of its tree, or
twice as many in `avl_offset`, where the height is that of an AVL tree of so many
pairs: 45 for up to 2 ^ 32 of them. -/
theorem zset_passes_logarithmic {scores : Bytes → Option Int}
    (hreach : ZSetReachable zset scores)
    (hsize : zset.hmap.nodes.length + 1 < Nat.fib (passes + 3)) :
    (∀ name score, score.isNaN = false → ∃ zset' added,
      zsetInsert zset name score (fun _ => passes) = some (zset', added) ∧
      zsetInsert zset name score = some (zset', added)) ∧
    (∀ node ∈ zset.hmap.nodes, ∃ zset',
      zsetDelete zset node (fun _ => passes) = some zset' ∧
      zsetDelete zset node = some zset') ∧
    (∀ score name, ∃ found,
      zsetSeekge zset score name (fun _ => passes) = some found ∧
      zsetSeekge zset score name = some found) ∧
    (zset.hmap.nodes.length < 2 ^ 32 → ∀ node ∈ zset.hmap.nodes, ∀ offset, ∃ found,
      znodeOffset zset (some node) offset (fun _ => 2 * passes) = some found ∧
      znodeOffset zset (some node) offset = some found) := by
  obtain ⟨tree, htree⟩ := hreach.maps.inv
  have hcount : tree.numNodes = zset.hmap.nodes.length := by
    rw [← length_inorder, htree.same.length_eq]
  have hheight := height_le_passes htree.balanced
    (show tree.numNodes + 1 < Nat.fib (passes + 3) by omega)
  have hlower := tree.height_le_numNodes
  have hbound := htree.numNodes_le
  refine ⟨?_, ?_, ?_, ?_⟩
  · intro name score hscore
    obtain ⟨zset', added, hinsert, _⟩ := zsetInsert_spec hreach.maps name hscore
    exact ⟨zset', added, by rw [zsetInsert_passes hreach.maps hscore hsize, hinsert],
      hinsert⟩
  · intro node hnode
    obtain ⟨zset', hdelete, _⟩ := zsetDelete_spec hreach.maps hnode
    have hdel : avlDel passes zset.tree node = avlDel zset.alloc zset.tree node :=
      avlDel_passes htree.layout htree.sorted.nodup (htree.same.mem_iff.mp hnode) hheight
        (by omega)
    refine ⟨zset', ?_, hdelete⟩
    rw [← hdelete]
    simp only [zsetDelete, hdel]
  · intro score name
    have hstored : avlHeight zset.tree zset.root = tree.height := by
      rw [htree.root, htree.layout.avlHeight_eq]
    have hhangs : Hangs zset.tree zset.root := ⟨none, tree, htree.layout, htree.root⟩
    obtain ⟨found, hseek⟩ := @seekge_returns zset passes none zset.root score name hhangs
      (by omega)
    refine ⟨found, hseek, ?_⟩
    rw [← hseek]
    exact seekge_passes hhangs (by omega) (by omega)
  · intro hsmall node hnode offset
    have hin := htree.same.mem_iff.mp hnode
    obtain ⟨start, hstart⟩ := List.mem_iff_getElem?.mp hin
    have hoffset := znodeOffset_spec htree (by omega) hstart offset
    refine ⟨_, ?_, hoffset⟩
    rw [← hoffset, znodeOffset, znodeOffset]
    exact avlOffset_passes htree.layout htree.sorted.nodup (by omega) hin offset
      (by omega) (by omega)

theorem zset_passes_logarithmic_three : ∃ zset scores,
    ZSetReachable zset scores ∧ zset.hmap.nodes.length = 3 ∧
      (∃ zset' added, zsetInsert zset [100] {} (fun _ => 2) = some (zset', added) ∧
        zsetInsert zset [100] {} = some (zset', added)) ∧
      ∃ found, zsetSeekge zset {} [98] (fun _ => 2) = some found ∧
        zsetSeekge zset {} [98] = some found := by
  have heval : (do
      let first ← zsetInsert {} [97] {}
      let second ← zsetInsert first.1 [98] {}
      let third ← zsetInsert second.1 [99] {}
      some third.1.hmap.nodes.length) = some 3 := by
    decide +kernel
  obtain ⟨⟨zset, _⟩, hfirst, heval⟩ := Option.bind_eq_some_iff.mp heval
  obtain ⟨⟨zset', _⟩, hsecond, heval⟩ := Option.bind_eq_some_iff.mp heval
  obtain ⟨⟨zset'', _⟩, hthird, heval⟩ := Option.bind_eq_some_iff.mp heval
  have hcount : zset''.hmap.nodes.length = 3 := Option.some.inj heval
  have hreach : ZSetReachable zset'' _ := .tail (.tail (.single
    (.insert [97] {} (by decide) hfirst)) (.insert [98] {} (by decide) hsecond))
    (.insert [99] {} (by decide) hthird)
  have hsize : zset''.hmap.nodes.length + 1 < Nat.fib (2 + 3) := by
    rw [hcount]
    decide
  have hpasses := zset_passes_logarithmic hreach hsize
  exact ⟨zset'', _, hreach, hcount, hpasses.1 [100] {} (by decide),
    hpasses.2.2.1 {} [98]⟩

end MiniRedis.Ds
