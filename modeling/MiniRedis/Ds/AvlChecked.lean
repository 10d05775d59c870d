import MiniRedis.Ds.AvlRuns

namespace MiniRedis.Ds

open MiniRedis.Data

/-! The code with its heights in 32 bits: the sums over heights are checked, and
one that does not fit is `none`. -/

def AvlOp.runChecked (state : AvlState) (op : AvlOp) :
    Option (AVLMem × Option Ptr) :=
  op.run state checkedUInt32

/-! Cells that link only to one another, with bounded heights. -/

structure Within (cells : List Ptr) (bound : Nat) (mem : AVLMem) : Prop where
  child : ∀ x ∈ cells, ∀ side c, (mem x).child side = some c → c ∈ cells
  parent : ∀ x ∈ cells, ∀ q, (mem x).parent = some q → q ∈ cells
  height : ∀ x ∈ cells, (mem x).height ≤ bound

variable {cells : List Ptr} {bound : Nat} {mem mem' : AVLMem} {p q : Ptr}
  {side : Side} {context : Context Ptr}

theorem Within.mono (h : Within cells bound mem) {larger : Nat}
    (hle : bound ≤ larger) : Within cells larger mem :=
  ⟨h.child, h.parent, fun x hx => (h.height x hx).trans hle⟩

theorem Within.avlHeight_le (h : Within cells bound mem) (hp : p ∈ cells)
    (side : Side) : avlHeight mem ((mem p).child side) ≤ bound := by
  cases hchild : (mem p).child side with
  | none => exact Nat.zero_le _
  | some c => exact h.height c (h.child p hp side c hchild)

theorem Within.setParent (h : Within cells bound mem) {parent : Option Ptr}
    (hparent : ∀ q, parent = some q → q ∈ cells) :
    Within cells bound (mem.setParent p parent) where
  child := by
    intro x hx side c hchild
    rw [AVLMem.setParent_apply] at hchild
    split at hchild
    · rw [AVLNode.child_setParent] at hchild
      exact h.child x hx side c hchild
    · exact h.child x hx side c hchild
  parent := by
    intro x hx q hq
    rw [AVLMem.setParent_apply] at hq
    split at hq
    · exact hparent q hq
    · exact h.parent x hx q hq
  height := by
    intro x hx
    rw [AVLMem.setParent_apply]
    split
    · exact h.height x hx
    · exact h.height x hx

theorem Within.setChild (h : Within cells bound mem) {child : Option Ptr}
    (hchild : ∀ c, child = some c → c ∈ cells) :
    Within cells bound (mem.setChild p side child) where
  child := by
    intro x hx other c hc
    rw [AVLMem.setChild_apply] at hc
    split at hc
    · by_cases heq : other = side
      · subst heq
        rw [AVLNode.child_withChild] at hc
        exact hchild c hc
      · have hflip : other = side.flip := by
          cases other <;> cases side <;> simp_all [Side.flip]
        subst hflip
        rw [AVLNode.child_flip_withChild] at hc
        exact h.child x hx _ c hc
    · exact h.child x hx other c hc
  parent := by
    intro x hx q hq
    rw [AVLMem.setChild_apply] at hq
    split at hq
    · rw [AVLNode.parent_withChild] at hq
      exact h.parent x hx q hq
    · exact h.parent x hx q hq
  height := by
    intro x hx
    rw [AVLMem.setChild_apply]
    split
    · cases side <;> exact h.height x hx
    · exact h.height x hx

theorem Within.adopt (h : Within cells bound mem) {child parent : Option Ptr}
    (hparent : ∀ q, parent = some q → q ∈ cells) :
    Within cells bound (mem.adopt child parent) := by
  cases child with
  | none => exact h
  | some child => exact h.setParent hparent

theorem Within.attach (h : Within cells bound mem)
    {link : Option (Ptr × Side)} {top : Option Ptr}
    (htop : ∀ c, top = some c → c ∈ cells) :
    Within cells bound (mem.attach link top) := by
  cases link with
  | none => exact h
  | some link => exact h.setChild htop

theorem Within.update (h : Within cells bound mem) (hp : p ∈ cells) :
    Within cells (bound + 1) (avlUpdate mem p) := by
  have hleft := h.avlHeight_le hp .left
  have hright := h.avlHeight_le hp .right
  simp only [AVLNode.child] at hleft hright
  refine ⟨?_, ?_, ?_⟩
  · intro x hx side c hchild
    by_cases heq : x = p
    · subst heq
      apply h.child x hx side c
      rw [avlUpdate, AVLMem.aggregate, AVLMem.write_self] at hchild
      cases side <;> exact hchild
    · rw [avlUpdate_other mem heq] at hchild
      exact h.child x hx side c hchild
  · intro x hx q hq
    by_cases heq : x = p
    · subst heq
      rw [avlUpdate, AVLMem.aggregate, AVLMem.write_self] at hq
      exact h.parent x hx q hq
    · rw [avlUpdate_other mem heq] at hq
      exact h.parent x hx q hq
  · intro x hx
    by_cases heq : x = p
    · subst heq
      rw [avlUpdate, AVLMem.aggregate, AVLMem.write_self]
      simp only [avlHeightSum]
      omega
    · rw [avlUpdate_other mem heq]
      exact (h.height x hx).trans (Nat.le_succ _)

theorem Within.updateChecked (h : Within cells bound mem) (hp : p ∈ cells)
    (hfits : bound + 1 < 2 ^ 32) :
    avlUpdateFit checkedUInt32 mem p = some (avlUpdate mem p) := by
  have hleft := h.avlHeight_le hp .left
  have hright := h.avlHeight_le hp .right
  simp only [AVLNode.child] at hleft hright
  rw [avlUpdateFit, checkedUInt32, if_pos (by rw [avlHeightSum]; omega)]
  rfl

/-! Each function gets the same with the checks, and says how far the heights may
have grown. -/

theorem Within.rotateLinks (h : Within cells bound mem) (hp : p ∈ cells)
    (hq : q ∈ cells) : Within cells bound (rotateLinks side mem p q) := by
  have hself : ∀ x, some p = some x → x ∈ cells := by
    rintro x ⟨⟩
    exact hp
  have hnew : ∀ x, some q = some x → x ∈ cells := by
    rintro x ⟨⟩
    exact hq
  apply Within.setParent _ hnew
  apply Within.setChild _ hself
  apply Within.setParent _ (h.parent p hp)
  apply Within.adopt _ hself
  exact h.setChild (h.child q hq side)

theorem Within.rotate (h : Within cells bound mem) (side : Side)
    (hp : p ∈ cells) (hfits : bound + 2 < 2 ^ 32) :
    rotate side mem p checkedUInt32 = rotate side mem p ∧
      ∀ mem' top, rotate side mem p = some (mem', top) →
        Within cells (bound + 2) mem' ∧ top ∈ cells := by
  cases hchild : (mem p).child side.flip with
  | none => simp [Ds.rotate, hchild]
  | some newNode =>
      have hnew := h.child p hp side.flip newNode hchild
      have hlinks : Within cells bound (Ds.rotateLinks side mem p newNode) :=
        h.rotateLinks hp hnew
      have hfirst := hlinks.update hp
      rw [rotate_eq hchild]
      constructor
      · rw [Ds.rotateLinks] at hlinks hfirst
        simp only [Ds.rotate, hchild, Option.bind_eq_bind, Option.bind_some,
          hlinks.updateChecked hp (by omega), hfirst.updateChecked hnew (by omega)]
        rfl
      · rintro mem' top ⟨⟩
        exact ⟨hfirst.update hnew, hnew⟩

theorem Within.fixSide (h : Within cells bound mem) (side : Side)
    (hp : p ∈ cells) (hfits : bound + 4 < 2 ^ 32) :
    avlFixSide side mem p checkedUInt32 = avlFixSide side mem p ∧
      ∀ mem' top, avlFixSide side mem p = some (mem', top) →
        Within cells (bound + 4) mem' ∧ top ∈ cells := by
  cases hchild : (mem p).child side with
  | none => simp [avlFixSide, hchild]
  | some heavy =>
      have hheavy := h.child p hp side heavy hchild
      simp only [avlFixSide, hchild, Option.bind_eq_bind, Option.bind_some]
      split
      · obtain ⟨hchecked, hwithin⟩ := h.rotate side hheavy (by omega)
        rw [hchecked]
        cases hrotate : Ds.rotate side mem heavy with
        | none => simp
        | some result =>
            obtain ⟨mem₁, top⟩ := result
            obtain ⟨hwithin₁, htop⟩ := hwithin mem₁ top hrotate
            have hlinked : Within cells (bound + 2)
                (mem₁.setChild p side (some top)) := by
              apply hwithin₁.setChild
              rintro c ⟨⟩
              exact htop
            exact hlinked.rotate side.flip hp (by omega)
      · obtain ⟨hchecked, hwithin⟩ := h.rotate side.flip hp (by omega)
        refine ⟨hchecked, fun mem' top hrotate => ?_⟩
        obtain ⟨hwithin', htop⟩ := hwithin mem' top hrotate
        exact ⟨hwithin'.mono (by omega), htop⟩

theorem Within.fixStep (h : Within cells bound mem) (hp : p ∈ cells)
    (hfits : bound + 5 < 2 ^ 32) :
    avlFixStep mem p checkedUInt32 = avlFixStep mem p ∧
      ∀ mem' top, avlFixStep mem p = some (mem', top) →
        Within cells (bound + 5) mem' := by
  have hupdated := h.update hp
  have hleft := hupdated.avlHeight_le hp .left
  have hright := hupdated.avlHeight_le hp .right
  simp only [AVLNode.child] at hleft hright
  have htall := hupdated.fixSide .left hp (by omega)
  have hshort := hupdated.fixSide .right hp (by omega)
  have hattach : ∀ {side : Side} {link : Option (Ptr × Side)},
      (∀ mem' top, avlFixSide side (avlUpdate mem p) p = some (mem', top) →
        Within cells (bound + 1 + 4) mem' ∧ top ∈ cells) →
      ∀ mem' top, (do
          let fixed ← avlFixSide side (avlUpdate mem p) p
          some (fixed.1.attach link (some fixed.2), fixed.2)) = some (mem', top) →
        Within cells (bound + 5) mem' := by
    intro side link hwithin mem' top hfix
    obtain ⟨⟨mem₁, top₁⟩, hside, hresult⟩ := Option.bind_eq_some_iff.mp hfix
    cases hresult
    obtain ⟨hwithin₁, htop⟩ := hwithin mem₁ top₁ hside
    apply hwithin₁.attach
    rintro c ⟨⟩
    exact htop
  have hfit : ∀ {sum : Nat}, sum < 2 ^ 32 → checkedUInt32 sum = some sum := fun hsum =>
    if_pos hsum
  simp only [avlFixStep, avlFixLeft, avlFixRight, h.updateChecked hp (by omega),
    avlUpdateFit_some, Option.bind_eq_bind, Option.bind_some]
  rw [hfit (by omega : avlHeight (avlUpdate mem p)
    (avlUpdate mem p p).right + 2 < 2 ^ 32), Option.bind_some]
  split
  · rw [htall.1]
    exact ⟨rfl, hattach htall.2⟩
  · rw [hfit (by omega : avlHeight (avlUpdate mem p)
      (avlUpdate mem p p).left + 2 < 2 ^ 32), Option.bind_some]
    split
    · rw [hshort.1]
      exact ⟨rfl, hattach hshort.2⟩
    · refine ⟨rfl, ?_⟩
      rintro mem' top ⟨⟩
      exact hupdated.mono (by omega)

theorem Within.fix {fuel : Nat} {frame : Frame Ptr} {tree : BinaryTree Ptr}
    (h : Within cells bound mem) (hlabel : frame.label ∈ cells)
    (hfixable : Fixable mem (frame :: context) tree)
    (hfuel : context.length < fuel)
    (hfits : bound + 5 * (context.length + 1) < 2 ^ 32) :
    avlFix fuel mem frame.label checkedUInt32 = avlFix fuel mem frame.label := by
  induction context generalizing mem frame tree fuel bound with
  | nil =>
      obtain ⟨fuel, rfl⟩ := Nat.exists_eq_succ_of_ne_zero (by omega : fuel ≠ 0)
      have hstep := (h.fixStep hlabel (by simpa using hfits)).1
      have hparent : (mem frame.label).parent = none :=
        hfixable.nodeAt.parentLink
      rw [avlFix, avlFix, hstep, hparent]
  | cons outer context ih =>
      obtain ⟨fuel, rfl⟩ := Nat.exists_eq_succ_of_ne_zero (by omega : fuel ≠ 0)
      rw [List.length_cons] at hfuel hfits
      obtain ⟨hstep, hwithin⟩ := h.fixStep hlabel (by omega)
      obtain ⟨mem₁, top, hresult, hnext, _⟩ := avlFixStep_spec hfixable
      have hparent : (mem frame.label).parent = some outer.label :=
        hfixable.nodeAt.parentLink
      have houter := h.parent frame.label hlabel outer.label hparent
      rw [avlFix, avlFix, hstep, hresult, hparent]
      exact ih (hwithin mem₁ top hresult) houter hnext (by omega) (by omega)

theorem Layout.within {tree : BinaryTree Ptr} (h : Layout mem none tree) :
    Within (inorder tree) tree.height mem := by
  have hnode : ∀ x ∈ inorder tree, ∃ context left right,
      tree = Context.plug context (.node x left right) ∧
      mem x = nodeCell context.parent left right := by
    intro x hx
    obtain ⟨context, left, right, htree⟩ := exists_plug_of_mem hx
    rw [htree] at h
    exact ⟨context, left, right, htree, (Layout.frames context h).1.1⟩
  refine ⟨?_, ?_, ?_⟩
  · intro x hx side c hchild
    obtain ⟨context, left, right, rfl, hcell⟩ := hnode x hx
    rw [hcell] at hchild
    rw [Context.inorder_plug]
    cases side with
    | left =>
        have hmem := rootLabel_mem (show rootLabel left = some c from hchild)
        simp [inorder, hmem]
    | right =>
        have hmem := rootLabel_mem (show rootLabel right = some c from hchild)
        simp [inorder, hmem]
  · intro x hx q hq
    obtain ⟨context, left, right, rfl, hcell⟩ := hnode x hx
    rw [hcell] at hq
    rw [(Context.inorder_plug_perm _ _).mem_iff, List.mem_append]
    cases context with
    | nil => cases hq
    | cons frame context =>
        cases hq
        simp [Context.labels]
  · intro x hx
    obtain ⟨context, left, right, rfl, hcell⟩ := hnode x hx
    have hheight := context.length_add_height_le (.node x left right)
    rw [hcell]
    simp only [nodeCell, BinaryTree.height] at hheight ⊢
    omega

theorem Within.fresh (h : Within cells bound mem) (hinit : mem p = avlInit) :
    Within (p :: cells) (bound + 1) mem where
  child := by
    intro x hx side c hchild
    rcases List.mem_cons.mp hx with rfl | hmem
    · rw [hinit] at hchild
      cases side <;> cases hchild
    · exact List.mem_cons_of_mem _ (h.child x hmem side c hchild)
  parent := by
    intro x hx q hq
    rcases List.mem_cons.mp hx with rfl | hmem
    · rw [hinit] at hq
      cases hq
    · exact List.mem_cons_of_mem _ (h.parent x hmem q hq)
  height := by
    intro x hx
    rcases List.mem_cons.mp hx with rfl | hmem
    · rw [hinit]
      exact Nat.le_add_left 1 bound
    · exact (h.height x hmem).trans (Nat.le_succ bound)

theorem frame_mem_plug (frame : Frame Ptr) (context : Context Ptr)
    (tree : BinaryTree Ptr) :
    frame.label ∈ inorder (Context.plug (frame :: context) tree) := by
  rw [(Context.inorder_plug_perm _ _).mem_iff]
  simp [Context.labels]

theorem Within.spliced (h : Within cells bound mem) {frame : Frame Ptr}
    {child : Option Ptr} (hlabel : frame.label ∈ cells)
    (hchild : ∀ c, child = some c → c ∈ cells) :
    Within cells bound (spliced mem frame child) := by
  apply Within.setChild _ hchild
  apply h.adopt
  rintro q ⟨⟩
  exact hlabel

theorem avlDelEasy_checked {fuel : Nat} {child : BinaryTree Ptr}
    (h : Layout mem none (context.plug (sideNode side p child .nil)))
    (hnodup : (inorder (context.plug (sideNode side p child .nil))).Nodup)
    (hfuel : context.length ≤ fuel)
    (hfits : 6 * (context.plug (sideNode side p child .nil)).height <
      2 ^ 32) :
    avlDelEasy fuel mem p checkedUInt32 = avlDelEasy fuel mem p := by
  cases context with
  | nil =>
      have hparent : (mem p).parent = none := h.nodeAt.parentLink
      simp only [avlDelEasy, hparent]
  | cons frame context =>
      obtain ⟨hchild, hparent, hside, hfixable⟩ := splice_spec h hnodup
      have hlabel := frame_mem_plug frame context (sideNode side p child .nil)
      have hroot : ∀ c, rootLabel child = some c → c ∈ inorder
          (Context.plug (frame :: context) (sideNode side p child .nil)) := by
        intro c hc
        rw [(Context.inorder_plug_perm _ _).mem_iff, List.mem_append,
          mem_inorder_sideNode]
        exact .inl (.inr (.inl (rootLabel_mem hc)))
      have hdepth := Context.length_add_height_le (frame :: context)
        (sideNode side p child .nil)
      rw [height_sideNode, List.length_cons] at hdepth
      have hfix := (h.within.spliced hlabel hroot).fix hlabel hfixable hfuel
        (by omega)
      rw [Ds.spliced] at hfix
      simp only [avlDelEasy, hchild, hparent, hside, hfix]

theorem avlDel_checked {fuel : Nat} {tree : BinaryTree Ptr}
    (h : Layout mem none tree) (hnodup : (inorder tree).Nodup)
    (hp : p ∈ inorder tree) (hfuel : tree.numNodes ≤ fuel)
    (hfits : 6 * tree.height < 2 ^ 32) :
    avlDel fuel mem p checkedUInt32 = avlDel fuel mem p := by
  have heasy : ∀ (side : Side) {child : BinaryTree Ptr} {context : Context Ptr}
      {q : Ptr}, tree = context.plug (sideNode side q child .nil) →
      avlDelEasy fuel mem q checkedUInt32 = avlDelEasy fuel mem q := by
    rintro side child context q rfl
    have hdepth := context.length_add_numNodes_le (sideNode side q child .nil)
    exact avlDelEasy_checked h hnodup (by omega) hfits
  obtain ⟨context, left, right, rfl⟩ := exists_plug_of_mem hp
  have hcell := (Layout.frames context h).1.1
  cases left with
  | nil =>
      have hchecked : avlDelEasy fuel mem p checkedUInt32 = avlDelEasy fuel mem p :=
        heasy .right rfl
      simp [avlDel, hcell, nodeCell, rootLabel, hchecked]
  | node l first second =>
      cases right with
      | nil =>
          have hchecked :
              avlDelEasy fuel mem p checkedUInt32 = avlDelEasy fuel mem p :=
            heasy .left rfl
          simp [avlDel, hcell, nodeCell, rootLabel, hchecked]
      | node r below above =>
          obtain ⟨outer, victim, rest, _, hwalk, hplug, _⟩ :=
            successor_spec h rfl hfuel
          have hchecked := heasy .right hplug
          have hleft : (mem p).left = some l := by rw [hcell]; rfl
          have hright : (mem p).right = some r := by rw [hcell]; rfl
          simp only [avlDel, hleft, hright, hwalk, hchecked,
            Option.bind_eq_bind, Option.bind_some]

/-- No sum over heights leaves 32 bits in any operation on a tree whose height
is far below that. -/
theorem Laid.runChecked {state : AvlState} {tree : BinaryTree Ptr}
    (h : Laid state tree) {op : AvlOp} (hplaced : op.Placed state)
    (hfits : 6 * tree.height + 6 < 2 ^ 32) :
    op.runChecked state = op.run state := by
  cases op with
  | del p =>
      apply avlDel_checked h.layout h.distinct (h.nodes ▸ hplaced) _
        (by omega)
      rw [h.nodes, length_inorder]
  | link hole p =>
      obtain ⟨context, rfl, rfl, _⟩ := h.hole hplaced
      have hfresh := hplaced.1
      rw [h.nodes] at hfresh
      have hlayout := h.write_init hfresh
      have hfixable :=
        link_fixable hlayout h.distinct hfresh (AVLMem.write_self _ _ _)
      have hwithin : Within (p :: inorder (context.plug .nil))
          ((context.plug BinaryTree.nil).height + 1)
          ((state.mem.write p avlInit).link (holeLink context) p) := by
        apply Within.setParent
        · apply (hlayout.within.fresh (AVLMem.write_self _ _ _)).attach
          rintro c ⟨⟩
          exact List.mem_cons_self
        · intro q hq
          cases context with
          | nil => cases hq
          | cons frame context =>
              cases hq
              exact List.mem_cons_of_mem _ (frame_mem_plug frame context .nil)
      have hdepth := context.length_add_height_le .nil
      have hfix := hwithin.fix List.mem_cons_self hfixable h.length_context_lt
        (by omega)
      simp only [AvlOp.runChecked, AvlOp.run, hfix]

end MiniRedis.Ds
