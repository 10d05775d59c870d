import MiniRedis.Store.HashTable
import Mathlib.Logic.Function.Basic

namespace MiniRedis.Store.Chained

/-! The hash table as it is in memory: arrays of chain heads, and chains that
run through the `next` pointers of the nodes.  A result `none` is a failed
assertion, an access outside an array, a null dereference or an endless walk. -/

structure HTab (α : Type) where
  tab : Option (List (Option α)) := none
  mask : Nat := 0
  size : Nat := 0

structure HMap (α : Type) where
  newer : HTab α := {}
  older : HTab α := {}
  migratePos : Nat := 0

abbrev Next (α : Type) := α → Option α

/-- An `HNode**`: the address of a slot, or of the `next` of a node. -/
inductive Owner (α : Type)
  | slot (pos : Nat)
  | next (node : α)

variable {α : Type}

/-- `*from`. -/
def HTab.load (htab : HTab α) (next : Next α) : Owner α → Option (Option α)
  | .slot pos => do
      let tab ← htab.tab
      tab[pos]?
  | .next node => some (next node)

def hInit (n : Nat) : Option (HTab α) :=
  if n > 0 ∧ (n - 1) &&& n = 0 then
    some { tab := some (List.replicate n none), mask := n - 1, size := 0 }
  else
    none

def hmTriggerRehashing (hmap : HMap α) : Option (HMap α) :=
  if hmap.older.tab.isSome then
    none
  else do
    let newer ← hInit ((hmap.newer.mask + 1) * 2)
    some { newer := newer, older := hmap.newer, migratePos := 0 }

def hmGrow (hmap : HMap α) : Option (HMap α) :=
  if hmap.older.tab.isNone ∧
      hmap.newer.size ≥ (hmap.newer.mask + 1) * kMaxLoadFactor then
    hmTriggerRehashing hmap
  else
    some hmap

def hmFirstTable (hmap : HMap α) : Option (HTab α) :=
  if hmap.newer.tab.isNone then hInit 4 else some hmap.newer

/-- The loop of `h_lookup`. -/
def chainWalk (hcode : α → UInt64) (next : Next α) (htab : HTab α)
    (key : Probe α) : Nat → Owner α → Option (Option (Owner α))
  | 0, _ => none
  | fuel + 1, owner => do
      match ← htab.load next owner with
      | none => some none
      | some cur =>
          if hcode cur == key.hcode && key.eq cur then
            some (some owner)
          else
            chainWalk hcode next htab key fuel (.next cur)

/-- A chain has no more nodes than the table, which bounds the walk. -/
def hLookup (hcode : α → UInt64) (next : Next α) (htab : HTab α)
    (key : Probe α) : Option (Option (Owner α)) :=
  if htab.tab.isNone then
    some none
  else
    chainWalk hcode next htab key (htab.size + 1)
      (.slot (slotOf key.hcode htab.mask))

/-! The callback of an iteration does not touch the chains. -/

def chainForeach (f : α → σ → Bool × σ) (next : Next α) :
    Nat → Option α → σ → Option (Bool × σ)
  | 0, _, _ => none
  | _ + 1, none, arg => some (true, arg)
  | fuel + 1, some node, arg =>
      match f node arg with
      | (true, arg) => chainForeach f next fuel (next node) arg
      | (false, arg) => some (false, arg)

def slotsForeach (f : α → σ → Bool × σ) (next : Next α) (fuel : Nat)
    (tab : List (Option α)) : List Nat → σ → Option (Bool × σ)
  | [], arg => some (true, arg)
  | i :: rest, arg => do
      let node ← tab[i]?
      match ← chainForeach f next fuel node arg with
      | (true, arg) => slotsForeach f next fuel tab rest arg
      | (false, arg) => some (false, arg)

def hForeach (f : α → σ → Bool × σ) (next : Next α) (htab : HTab α) (arg : σ) :
    Option (Bool × σ) :=
  match htab.tab with
  | none => some (true, arg)
  | some tab =>
      slotsForeach f next (htab.size + 1) tab (List.range (htab.mask + 1)) arg

def hmForeach (f : α → σ → Bool × σ) (next : Next α) (hmap : HMap α) (arg : σ) :
    Option σ := do
  let (go, arg) ← hForeach f next hmap.newer arg
  if go then do
    let (_, arg) ← hForeach f next hmap.older arg
    some arg
  else
    some arg

/-! What writes to the memory. -/

variable [DecidableEq α]

/-- `*from = node`. -/
def HTab.store (htab : HTab α) (next : Next α) (owner : Owner α)
    (node : Option α) : Option (Next α × HTab α) :=
  match owner with
  | .slot pos => do
      let tab ← htab.tab
      if pos < tab.length then
        some (next, { htab with tab := some (tab.set pos node) })
      else
        none
  | .next other => some (Function.update next other node, htab)

def hInsert (hcode : α → UInt64) (next : Next α) (htab : HTab α) (node : α) :
    Option (Next α × HTab α) := do
  let pos := slotOf (hcode node) htab.mask
  let head ← htab.load next (.slot pos)
  let next := Function.update next node head
  let (next, htab) ← htab.store next (.slot pos) (some node)
  some (next, { htab with size := htab.size + 1 })

def hDetach (next : Next α) (htab : HTab α) (owner : Owner α) :
    Option (Next α × HTab α × α) := do
  let head ← htab.load next owner
  let node ← head
  let (next, htab) ← htab.store next owner (next node)
  some (next, { htab with size := htab.size - 1 }, node)

def hmMigrateStep (hcode : α → UInt64) (next : Next α) (hmap : HMap α) :
    Option (Next α × HMap α × Nat) := do
  match ← hmap.older.load next (.slot hmap.migratePos) with
  | none => some (next, { hmap with migratePos := hmap.migratePos + 1 }, 0)
  | some _ => do
      let (next, older, node) ← hDetach next hmap.older (.slot hmap.migratePos)
      let (next, newer) ← hInsert hcode next hmap.newer node
      some (next, { hmap with newer := newer, older := older }, 1)

def hmMigrate (hcode : α → UInt64) :
    Nat → Nat → Next α → HMap α → Option (Next α × HMap α)
  | 0, _, _, _ => none
  | fuel + 1, nwork, next, hmap =>
      if nwork < kRehashingWork ∧ hmap.older.size > 0 then do
        let (next, hmap, work) ← hmMigrateStep hcode next hmap
        hmMigrate hcode fuel (nwork + work) next hmap
      else
        some (next, hmap)

def hmHelpRehashing (hcode : α → UInt64) (next : Next α) (hmap : HMap α) :
    Option (Next α × HMap α) := do
  let fuel := kRehashingWork + (hmap.older.mask + 1) + 1
  let (next, hmap) ← hmMigrate hcode fuel 0 next hmap
  if hmap.older.size = 0 ∧ hmap.older.tab.isSome then
    some (next, { hmap with older := {} })
  else
    some (next, hmap)

def hmLookup (hcode : α → UInt64) (next : Next α) (hmap : HMap α)
    (key : Probe α) : Option (Next α × HMap α × Option α) := do
  let (next, hmap) ← hmHelpRehashing hcode next hmap
  match ← hLookup hcode next hmap.newer key with
  | some owner => do
      let node ← hmap.newer.load next owner
      some (next, hmap, node)
  | none =>
      match ← hLookup hcode next hmap.older key with
      | some owner => do
          let node ← hmap.older.load next owner
          some (next, hmap, node)
      | none => some (next, hmap, none)

def hmInsert (hcode : α → UInt64) (next : Next α) (hmap : HMap α) (node : α) :
    Option (Next α × HMap α) := do
  let newer ← hmFirstTable hmap
  let (next, newer) ← hInsert hcode next newer node
  let hmap ← hmGrow { hmap with newer := newer }
  hmHelpRehashing hcode next hmap

def hmDelete (hcode : α → UInt64) (next : Next α) (hmap : HMap α)
    (key : Probe α) : Option (Next α × HMap α × Option α) := do
  let (next, hmap) ← hmHelpRehashing hcode next hmap
  match ← hLookup hcode next hmap.newer key with
  | some owner => do
      let (next, newer, node) ← hDetach next hmap.newer owner
      some (next, { hmap with newer := newer }, some node)
  | none =>
      match ← hLookup hcode next hmap.older key with
      | some owner => do
          let (next, older, node) ← hDetach next hmap.older owner
          some (next, { hmap with older := older }, some node)
      | none => some (next, hmap, none)

end MiniRedis.Store.Chained
