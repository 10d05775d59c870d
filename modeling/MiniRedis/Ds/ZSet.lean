import MiniRedis.Common.Bytes
import MiniRedis.Data.Double
import MiniRedis.Ds.Avl
import MiniRedis.Store.HashTable

namespace MiniRedis.Ds

open MiniRedis.Data MiniRedis.Store

/-! Sorted sets: pairs linked into an AVL tree by (score, name) and into a hash
map by name.  The nodes of a set live in a memory of its own, and an allocation
takes an address never used before.  A pointer loop may take as many passes as
`passes` says, by default as many as there have been allocations. -/

structure ZNode where
  hcode : UInt64 := 0
  score : Double := {}
  name : Bytes := []

/-- `tree p` is the hook `node->tree` of the node at `p`. -/
structure ZSet where
  root : Option Ptr := none
  hmap : HMap Ptr := {}
  tree : AVLMem := {}
  node : Ptr → ZNode := fun _ => {}
  alloc : Nat := 0

def ZSet.hcode (zset : ZSet) (p : Ptr) : UInt64 := (zset.node p).hcode

def ZSet.setNode (zset : ZSet) (p : Ptr) (node : ZNode) : ZSet :=
  { zset with node := fun q => if q = p then node else zset.node q }

def znodeNew (zset : ZSet) (name : Bytes) (score : Double) : ZSet × Ptr :=
  let node := zset.alloc
  let zset := zset.setNode node ⟨strHash name, score, name⟩
  ({ zset with tree := zset.tree.write node avlInit, alloc := node + 1 }, node)

def znodeDel (zset : ZSet) (node : Ptr) : ZSet :=
  let zset := zset.setNode node {}
  { zset with tree := zset.tree.write node {} }

def zlessKey (lhs : ZNode) (score : Double) (name : Bytes) : Bool :=
  if !lhs.score.ieeeEq score then
    lhs.score.ieeeLt score
  else
    match memcmp (min lhs.name.length name.length) lhs.name name with
    | .lt => true
    | .gt => false
    | .eq => lhs.name.length < name.length

def zless (lhs rhs : ZNode) : Bool := zlessKey lhs rhs.score rhs.name

def hcmp (znode : ZNode) (name : Bytes) : Bool :=
  if znode.name.length ≠ name.length then
    false
  else
    memcmp znode.name.length znode.name name == .eq

/-- The `HKey` probe for a name with its hash. -/
def ZSet.probe (zset : ZSet) (code : UInt64) (name : Bytes) : Probe Ptr where
  hcode := code
  eq := fun p => hcmp (zset.node p) name

def zsetLookup (zset : ZSet) (name : Bytes) : Option (ZSet × Option Ptr) :=
  if zset.root.isNone then
    some (zset, none)
  else do
    let (hmap, found) ← hmLookup zset.hcode zset.hmap
      (zset.probe (strHash name) name)
    some ({ zset with hmap := hmap }, found)

/-- The walk of `tree_insert` down to an empty link. -/
def treeWalk (zset : ZSet) (node : Ptr) :
    Nat → Option (Ptr × Side) → Option Ptr → Option (Option (Ptr × Side))
  | _, link, none => some link
  | 0, _, some _ => none
  | fuel + 1, _, some parent =>
      let side : Side :=
        if zless (zset.node node) (zset.node parent) then .left else .right
      treeWalk zset node fuel (some (parent, side))
        ((zset.tree parent).child side)

def treeInsert (zset : ZSet) (node : Ptr) (passes : ZSet → Nat := ZSet.alloc) :
    Option ZSet := do
  let link ← treeWalk zset node (passes zset) none zset.root
  let (tree, root) ← avlFix (passes zset + 1) (zset.tree.link link node) node
  some { zset with tree := tree, root := some root }

/-- The set with `node` off its tree, reset and given its new score. -/
def ZSet.rescore (zset : ZSet) (tree : AVLMem) (root : Option Ptr) (node : Ptr)
    (score : Double) : ZSet :=
  let zset := { zset with tree := tree.write node avlInit, root := root }
  zset.setNode node { zset.node node with score := score }

def zsetUpdate (zset : ZSet) (node : Ptr) (score : Double)
    (passes : ZSet → Nat := ZSet.alloc) : Option ZSet :=
  if (zset.node node).score.ieeeEq score then
    some zset
  else do
    let (tree, root) ← avlDel (passes zset) zset.tree node
    treeInsert (zset.rescore tree root node score) node passes

/-- The branch of `zset_insert` for a name not in the set. -/
def zsetCreate (zset : ZSet) (name : Bytes) (score : Double)
    (passes : ZSet → Nat := ZSet.alloc) : Option ZSet := do
  let (zset, node) := znodeNew zset name score
  let hmap ← hmInsert zset.hcode zset.hmap node
  treeInsert { zset with hmap := hmap } node passes

def zsetInsert (zset : ZSet) (name : Bytes) (score : Double)
    (passes : ZSet → Nat := ZSet.alloc) : Option (ZSet × Bool) := do
  let (zset, found) ← zsetLookup zset name
  match found with
  | some node => do
      let zset ← zsetUpdate zset node score passes
      some (zset, false)
  | none => do
      let zset ← zsetCreate zset name score passes
      some (zset, true)

def zsetDelete (zset : ZSet) (node : Ptr) (passes : ZSet → Nat := ZSet.alloc) :
    Option ZSet := do
  let (hmap, found) ← hmDelete zset.hcode zset.hmap
    (zset.probe (zset.hcode node) (zset.node node).name)
  if found.isNone then
    none
  else do
    let (tree, root) ← avlDel (passes zset) zset.tree node
    some (znodeDel { zset with tree := tree, hmap := hmap, root := root } node)

/-- The loop of `zset_seekge`, with its best candidate so far. -/
def seekge (zset : ZSet) (score : Double) (name : Bytes) :
    Nat → Option Ptr → Option Ptr → Option (Option Ptr)
  | _, found, none => some found
  | 0, _, some _ => none
  | fuel + 1, found, some node =>
      if zlessKey (zset.node node) score name then
        seekge zset score name fuel found (zset.tree node).right
      else
        seekge zset score name fuel (some node) (zset.tree node).left

def zsetSeekge (zset : ZSet) (score : Double) (name : Bytes)
    (passes : ZSet → Nat := ZSet.alloc) : Option (Option Ptr) :=
  seekge zset score name (passes zset) none zset.root

def znodeOffset (zset : ZSet) (node : Option Ptr) (offset : Int)
    (passes : ZSet → Nat := fun zset => 2 * zset.alloc + 1) :
    Option (Option Ptr) :=
  match node with
  | some node => avlOffset (passes zset) zset.tree node offset
  | none => some none

def treeDispose : Nat → ZSet → Option Ptr → Option ZSet
  | _, zset, none => some zset
  | 0, _, some _ => none
  | fuel + 1, zset, some node => do
      let zset ← treeDispose fuel zset (zset.tree node).left
      let zset ← treeDispose fuel zset (zset.tree node).right
      some (znodeDel zset node)

def zsetClear (zset : ZSet) : Option ZSet := do
  let zset := { zset with hmap := hmClear zset.hmap }
  let zset ← treeDispose zset.alloc zset zset.root
  some { zset with root := none }

end MiniRedis.Ds
