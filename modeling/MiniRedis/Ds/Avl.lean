import MiniRedis.Data.MachineInt
import MiniRedis.Data.TreeContext

namespace MiniRedis.Ds

open MiniRedis.Data

/-! The intrusive AVL tree.  Nodes live in a memory of cells addressed by
pointers, and a null dereference or an endless pointer walk is `none`.
`height` is kept exact: it stays below 2 ^ 32 for every tree that fits an
address space, while `cnt` wraps like the `uint32_t` it is. -/

abbrev Ptr := Nat

structure AVLNode where
  parent : Option Ptr := none
  left : Option Ptr := none
  right : Option Ptr := none
  height : Nat := 1
  cnt : Nat := 1
deriving DecidableEq, Repr

def AVLNode.child (node : AVLNode) : Side → Option Ptr
  | .left => node.left
  | .right => node.right

def AVLNode.withChild (node : AVLNode) (side : Side) (child : Option Ptr) :
    AVLNode :=
  match side with
  | .left => { node with left := child }
  | .right => { node with right := child }

structure AVLMem where
  cell : Ptr → AVLNode := fun _ => {}

instance : CoeFun AVLMem fun _ => Ptr → AVLNode := ⟨AVLMem.cell⟩

namespace AVLMem

def write (mem : AVLMem) (p : Ptr) (node : AVLNode) : AVLMem where
  cell q := if q = p then node else mem q

def setParent (mem : AVLMem) (p : Ptr) (parent : Option Ptr) : AVLMem :=
  mem.write p { mem p with parent := parent }

def setChild (mem : AVLMem) (p : Ptr) (side : Side) (child : Option Ptr) :
    AVLMem :=
  mem.write p ((mem p).withChild side child)

/-- `if(child) child->parent = parent`. -/
def adopt (mem : AVLMem) (child parent : Option Ptr) : AVLMem :=
  match child with
  | some child => mem.setParent child parent
  | none => mem

end AVLMem

def avlInit : AVLNode := {}

def avlHeight (mem : AVLMem) : Option Ptr → Nat
  | none => 0
  | some p => (mem p).height

def avlCnt (mem : AVLMem) : Option Ptr → Nat
  | none => 0
  | some p => (mem p).cnt

def avlHeightSum (mem : AVLMem) (node : Ptr) : Nat :=
  1 + max (avlHeight mem (mem node).left) (avlHeight mem (mem node).right)

def AVLMem.aggregate (mem : AVLMem) (node : Ptr) (height : Nat) : AVLMem :=
  mem.write node { mem node with
    height := height
    cnt := (1 + avlCnt mem (mem node).left + avlCnt mem (mem node).right) %
      2 ^ 32 }

def avlUpdate (mem : AVLMem) (node : Ptr) : AVLMem :=
  mem.aggregate node (avlHeightSum mem node)

/-- `fit` is what becomes of a sum over heights: it is kept, or it is `none` if
it does not fit its type. -/
def avlUpdateFit (fit : Nat → Option Nat) (mem : AVLMem) (node : Ptr) :
    Option AVLMem := do
  let height ← fit (avlHeightSum mem node)
  some (mem.aggregate node height)

/-- The rotation towards `side`: the child on the other side takes the place
of `node`.  The caller re-links the parent's child pointer. -/
def rotate (side : Side) (mem : AVLMem) (node : Ptr)
    (fit : Nat → Option Nat := some) : Option (AVLMem × Ptr) := do
  let parent := (mem node).parent
  let newNode ← (mem node).child side.flip
  let inner := (mem newNode).child side
  let mem := mem.setChild node side.flip inner
  let mem := mem.adopt inner (some node)
  let mem := mem.setParent newNode parent
  let mem := mem.setChild newNode side (some node)
  let mem := mem.setParent node (some newNode)
  let mem ← avlUpdateFit fit mem node
  let mem ← avlUpdateFit fit mem newNode
  some (mem, newNode)

def rotLeft (mem : AVLMem) (node : Ptr) (fit : Nat → Option Nat := some) :
    Option (AVLMem × Ptr) :=
  rotate .left mem node fit

def rotRight (mem : AVLMem) (node : Ptr) (fit : Nat → Option Nat := some) :
    Option (AVLMem × Ptr) :=
  rotate .right mem node fit

def avlFixSide (side : Side) (mem : AVLMem) (node : Ptr)
    (fit : Nat → Option Nat := some) : Option (AVLMem × Ptr) := do
  let heavy ← (mem node).child side
  if avlHeight mem ((mem heavy).child side) <
      avlHeight mem ((mem heavy).child side.flip) then do
    let (mem, top) ← rotate side mem heavy fit
    rotate side.flip (mem.setChild node side (some top)) node fit
  else
    rotate side.flip mem node fit

def avlFixLeft (mem : AVLMem) (node : Ptr) (fit : Nat → Option Nat := some) :
    Option (AVLMem × Ptr) :=
  avlFixSide .left mem node fit

def avlFixRight (mem : AVLMem) (node : Ptr) (fit : Nat → Option Nat := some) :
    Option (AVLMem × Ptr) :=
  avlFixSide .right mem node fit

def owningLink (mem : AVLMem) (node : Ptr) : Option (Ptr × Side) :=
  (mem node).parent.map fun parent =>
    (parent, if (mem parent).left = some node then .left else .right)

/-- `*from = top`: through the owning link, or into the local root variable. -/
def AVLMem.attach (mem : AVLMem) (link : Option (Ptr × Side))
    (top : Option Ptr) : AVLMem :=
  match link with
  | some (parent, side) => mem.setChild parent side top
  | none => mem

/-- `*from = node; node->parent = parent`: hanging a node at an empty link. -/
def AVLMem.link (mem : AVLMem) (link : Option (Ptr × Side)) (node : Ptr) :
    AVLMem :=
  (mem.attach link (some node)).setParent node (link.map Prod.fst)

/-- One pass through the loop of `avl_fix`, with the subtree's new top. -/
def avlFixStep (mem : AVLMem) (node : Ptr) (fit : Nat → Option Nat := some) :
    Option (AVLMem × Ptr) := do
  let link := owningLink mem node
  let mem ← avlUpdateFit fit mem node
  let l := avlHeight mem (mem node).left
  let r := avlHeight mem (mem node).right
  let tall ← fit (r + 2)
  if l = tall then do
    let (mem, top) ← avlFixLeft mem node fit
    some (mem.attach link (some top), top)
  else do
    let short ← fit (l + 2)
    if short = r then do
      let (mem, top) ← avlFixRight mem node fit
      some (mem.attach link (some top), top)
    else
      some (mem, node)

def avlFix (fuel : Nat) (mem : AVLMem) (node : Ptr)
    (fit : Nat → Option Nat := some) : Option (AVLMem × Ptr) :=
  match fuel with
  | 0 => none
  | fuel + 1 => do
      let parent := (mem node).parent
      let (mem, top) ← avlFixStep mem node fit
      match parent with
      | none => some (mem, top)
      | some parent => avlFix fuel mem parent fit

def avlDelEasy (fuel : Nat) (mem : AVLMem) (node : Ptr)
    (fit : Nat → Option Nat := some) : Option (AVLMem × Option Ptr) :=
  let child := (mem node).left.or (mem node).right
  let parent := (mem node).parent
  let mem := mem.adopt child parent
  match parent with
  | none => some (mem, child)
  | some parent => do
      let side : Side := if (mem parent).left = some node then .left else .right
      let (mem, root) ← avlFix fuel (mem.setChild parent side child) parent fit
      some (mem, some root)

def leftmost : Nat → AVLMem → Ptr → Option Ptr
  | 0, _, _ => none
  | fuel + 1, mem, victim =>
      match (mem victim).left with
      | some left => leftmost fuel mem left
      | none => some victim

/-- `victim` adopts the links and aggregates of `node`. -/
def transplant (mem : AVLMem) (node victim : Ptr) (root : Option Ptr) :
    AVLMem × Option Ptr :=
  let mem := mem.write victim (mem node)
  let mem := mem.adopt (mem victim).left (some victim)
  let mem := mem.adopt (mem victim).right (some victim)
  match owningLink mem node with
  | none => (mem, some victim)
  | some link => (mem.attach (some link) (some victim), root)

def avlDel (fuel : Nat) (mem : AVLMem) (node : Ptr)
    (fit : Nat → Option Nat := some) : Option (AVLMem × Option Ptr) :=
  match (mem node).left, (mem node).right with
  | some _, some right => do
      let victim ← leftmost fuel mem right
      let (mem, root) ← avlDelEasy fuel mem victim fit
      some (transplant mem node victim root)
  | _, _ => avlDelEasy fuel mem node fit

def avlClimb (mem : AVLMem) (node : Ptr) (pos : Int) :
    Option (Option (Ptr × Int)) :=
  match (mem node).parent with
  | none => some none
  | some parent =>
      if (mem parent).right = some node then do
        let step : Nat := (avlCnt mem (mem node).left + 1) % 2 ^ 32
        let pos ← checkedInt64 (pos - step)
        some (some (parent, pos))
      else do
        let step : Nat := (avlCnt mem (mem node).right + 1) % 2 ^ 32
        let pos ← checkedInt64 (pos + step)
        some (some (parent, pos))

/-- One pass through the loop of `avl_offset` away from the target: descend
into the subtree that holds it, or climb.  `some none` is a rank outside the
tree. -/
def avlOffsetStep (mem : AVLMem) (offset : Int) (node : Ptr) (pos : Int) :
    Option (Option (Ptr × Int)) :=
  if pos < offset then do
    let reach ← checkedInt64 (pos + avlCnt mem (mem node).right)
    if reach ≥ offset then do
      let node ← (mem node).right
      let step : Nat := (avlCnt mem (mem node).left + 1) % 2 ^ 32
      let pos ← checkedInt64 (pos + step)
      some (some (node, pos))
    else
      avlClimb mem node pos
  else do
    let reach ← checkedInt64 (pos - avlCnt mem (mem node).left)
    if reach ≤ offset then do
      let node ← (mem node).left
      let step : Nat := (avlCnt mem (mem node).right + 1) % 2 ^ 32
      let pos ← checkedInt64 (pos - step)
      some (some (node, pos))
    else
      avlClimb mem node pos

def avlOffsetLoop (mem : AVLMem) (offset : Int) :
    Nat → Ptr → Int → Option (Option Ptr)
  | 0, _, _ => none
  | fuel + 1, node, pos =>
      if offset = pos then
        some (some node)
      else do
        match ← avlOffsetStep mem offset node pos with
        | none => some none
        | some (node, pos) => avlOffsetLoop mem offset fuel node pos

def avlOffset (fuel : Nat) (mem : AVLMem) (node : Ptr) (offset : Int) :
    Option (Option Ptr) :=
  avlOffsetLoop mem offset fuel node 0

end MiniRedis.Ds
