import MiniRedis.Data.HeapOrder
import Mathlib.Data.List.Basic

namespace MiniRedis.Ds

open MiniRedis.Data

/-! The indexed timer heap.  Each item refers to an owner, and every move
writes the item's new position to the owner's index field. -/

structure HeapItem (ρ : Type) where
  val : Nat
  ref : ρ

/-- The owners' index fields; `none` is `(size_t)-1`. -/
structure IndexMem (ρ : Type) where
  idx : ρ → Option Nat := fun _ => none

structure Heap (ρ : Type) where
  items : List (HeapItem ρ) := []
  index : IndexMem ρ := {}

variable {ρ : Type} [DecidableEq ρ]

def IndexMem.write (index : IndexMem ρ) (ref : ρ) (value : Option Nat) :
    IndexMem ρ where
  idx other := if other = ref then value else index.idx other

def heapParent (i : Nat) : Nat := parentIndex i

def heapLeft (i : Nat) : Nat := i * 2 + 1

def heapRight (i : Nat) : Nat := i * 2 + 2

/-- `a[pos] = item; *a[pos].ref = pos`. -/
def Heap.place (heap : Heap ρ) (pos : Nat) (item : HeapItem ρ) :
    Option (Heap ρ) :=
  if pos < heap.items.length then
    some { items := heap.items.set pos item
           index := heap.index.write item.ref (some pos) }
  else
    none

/-- The loop of `heap_up`: position `pos` is a hole that `t` will fill. -/
def heapUpLoop (t : HeapItem ρ) : Nat → Heap ρ → Nat → Option (Heap ρ)
  | 0, _, _ => none
  | fuel + 1, heap, pos =>
      if pos > 0 then do
        let parent ← heap.items[heapParent pos]?
        if parent.val > t.val then do
          let heap ← heap.place pos parent
          heapUpLoop t fuel heap (heapParent pos)
        else
          heap.place pos t
      else
        heap.place pos t

def heapUp (heap : Heap ρ) (pos : Nat) : Option (Heap ρ) := do
  let t ← heap.items[pos]?
  heapUpLoop t (pos + 1) heap pos

/-- One of the two comparisons of `heap_down`, on the best position so far
and its value. -/
def smaller (items : List (HeapItem ρ)) (len child : Nat)
    (best : Nat × Nat) : Option (Nat × Nat) :=
  if child < len then do
    let item ← items[child]?
    if item.val < best.2 then some (child, item.val) else some best
  else
    some best

def heapDownLoop (t : HeapItem ρ) (len : Nat) :
    Nat → Heap ρ → Nat → Option (Heap ρ)
  | 0, _, _ => none
  | fuel + 1, heap, pos => do
      let best ← smaller heap.items len (heapLeft pos) (pos, t.val)
      let (minPos, _) ← smaller heap.items len (heapRight pos) best
      if minPos = pos then
        heap.place pos t
      else do
        let item ← heap.items[minPos]?
        let heap ← heap.place pos item
        heapDownLoop t len fuel heap minPos

def heapDown (heap : Heap ρ) (pos len : Nat) : Option (Heap ρ) := do
  let t ← heap.items[pos]?
  heapDownLoop t len (len + 1) heap pos

def heapUpdate (heap : Heap ρ) (pos len : Nat) : Option (Heap ρ) := do
  let item ← heap.items[pos]?
  if pos > 0 then do
    let parent ← heap.items[heapParent pos]?
    if parent.val > item.val then heapUp heap pos else heapDown heap pos len
  else
    heapDown heap pos len

def heapAppend (heap : Heap ρ) (t : HeapItem ρ) : Option (Heap ρ) :=
  heapUpdate { heap with items := heap.items ++ [t] } heap.items.length
    (heap.items.length + 1)

/-- A position out of range, `(size_t)-1` included, appends. -/
def heapUpsert (heap : Heap ρ) (pos : Option Nat) (t : HeapItem ρ) :
    Option (Heap ρ) :=
  match pos with
  | some pos =>
      if pos < heap.items.length then
        heapUpdate { heap with items := heap.items.set pos t } pos
          heap.items.length
      else
        heapAppend heap t
  | none => heapAppend heap t

def heapDelete (heap : Heap ρ) (pos : Nat) : Option (Heap ρ) := do
  let last ← heap.items.getLast?
  if pos < heap.items.length then
    let items := (heap.items.set pos last).dropLast
    if pos < items.length then
      heapUpdate { heap with items := items } pos items.length
    else
      some { heap with items := items }
  else
    none

end MiniRedis.Ds
