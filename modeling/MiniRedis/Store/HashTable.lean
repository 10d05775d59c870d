import MiniRedis.Data.Slots
import Mathlib.Data.Nat.Bitwise

namespace MiniRedis.Store

open MiniRedis.Data

/-! The intrusive hash table.  A node is an abstract handle whose cached hash
is read through `hcode`; a chain is the list of its nodes from the slot head.
A result `none` is a failed assertion or an access outside the table. -/

structure HTab (α : Type) where
  tab : Option (List (List α)) := none
  mask : Nat := 0
  size : Nat := 0

structure HMap (α : Type) where
  newer : HTab α := {}
  older : HTab α := {}
  migratePos : Nat := 0

/-- The stack probe of a lookup: its cached hash and the comparison of a
stored node with it. -/
structure Probe (α : Type) where
  hcode : UInt64
  eq : α → Bool

/-- The address of an owning pointer: position `depth` of the chain at
`slot`. -/
structure Link where
  slot : Nat
  depth : Nat

variable {α : Type}

def hInit (n : Nat) : Option (HTab α) :=
  if n > 0 ∧ (n - 1) &&& n = 0 then
    some { tab := some (List.replicate n []), mask := n - 1, size := 0 }
  else
    none

def slotOf (code : UInt64) (mask : Nat) : Nat := code.toNat &&& mask

def hInsert (hcode : α → UInt64) (htab : HTab α) (node : α) :
    Option (HTab α) := do
  let tab ← htab.tab
  let pos := slotOf (hcode node) htab.mask
  let chain ← tab[pos]?
  some { htab with
    tab := some (tab.set pos (node :: chain))
    size := htab.size + 1 }

def hLookup (hcode : α → UInt64) (htab : HTab α) (key : Probe α) :
    Option (Option Link) :=
  match htab.tab with
  | none => some none
  | some tab => do
      let pos := slotOf key.hcode htab.mask
      let chain ← tab[pos]?
      let depth := chain.findIdx? fun cur =>
        hcode cur == key.hcode && key.eq cur
      some (depth.map fun depth => ⟨pos, depth⟩)

/-- Dereference an owning pointer. -/
def HTab.deref (htab : HTab α) (link : Link) : Option α := do
  let tab ← htab.tab
  let chain ← tab[link.slot]?
  chain[link.depth]?

def hDetach (htab : HTab α) (link : Link) : Option (HTab α × α) := do
  let tab ← htab.tab
  let chain ← tab[link.slot]?
  let node ← chain[link.depth]?
  some ({ htab with
    tab := some (tab.set link.slot (chain.eraseIdx link.depth))
    size := htab.size - 1 }, node)

def kRehashingWork : Nat := 128

def kMaxLoadFactor : Nat := 8

/-- One pass through the body of the migration loop, with the work it
counts. -/
def hmMigrateStep (hcode : α → UInt64) (hmap : HMap α) :
    Option (HMap α × Nat) := do
  let tab ← hmap.older.tab
  let chain ← tab[hmap.migratePos]?
  if chain.isEmpty then
    some ({ hmap with migratePos := hmap.migratePos + 1 }, 0)
  else do
    let (older, node) ← hDetach hmap.older ⟨hmap.migratePos, 0⟩
    let newer ← hInsert hcode hmap.newer node
    some ({ hmap with newer := newer, older := older }, 1)

def hmMigrate (hcode : α → UInt64) : Nat → Nat → HMap α → Option (HMap α)
  | 0, _, _ => none
  | fuel + 1, nwork, hmap =>
      if nwork < kRehashingWork ∧ hmap.older.size > 0 then do
        let (hmap, work) ← hmMigrateStep hcode hmap
        hmMigrate hcode fuel (nwork + work) hmap
      else
        some hmap

/-- The loop leaves `older` at the latest after visiting each of its slots
and moving `k_rehashing_work` nodes, which bounds its fuel. -/
def hmMigrateFuel (hmap : HMap α) : Nat :=
  kRehashingWork + (hmap.older.mask + 1) + 1

def hmHelpRehashing (hcode : α → UInt64) (hmap : HMap α) :
    Option (HMap α) := do
  let hmap ← hmMigrate hcode (hmMigrateFuel hmap) 0 hmap
  if hmap.older.size = 0 ∧ hmap.older.tab.isSome then
    some { hmap with older := {} }
  else
    some hmap

def hmTriggerRehashing (hmap : HMap α) : Option (HMap α) :=
  if hmap.older.tab.isSome then
    none
  else do
    let newer ← hInit ((hmap.newer.mask + 1) * 2)
    some { newer := newer, older := hmap.newer, migratePos := 0 }

def hmLookup (hcode : α → UInt64) (hmap : HMap α) (key : Probe α) :
    Option (HMap α × Option α) := do
  let hmap ← hmHelpRehashing hcode hmap
  match ← hLookup hcode hmap.newer key with
  | some link => do
      let node ← hmap.newer.deref link
      some (hmap, some node)
  | none =>
      match ← hLookup hcode hmap.older key with
      | some link => do
          let node ← hmap.older.deref link
          some (hmap, some node)
      | none => some (hmap, none)

/-- The load check of `hm_insert`, skipped while a migration is running. -/
def hmGrow (hmap : HMap α) : Option (HMap α) :=
  if hmap.older.tab.isNone ∧
      hmap.newer.size ≥ (hmap.newer.mask + 1) * kMaxLoadFactor then
    hmTriggerRehashing hmap
  else
    some hmap

/-- The lazily allocated first table. -/
def hmFirstTable (hmap : HMap α) : Option (HTab α) :=
  if hmap.newer.tab.isNone then hInit 4 else some hmap.newer

def hmInsert (hcode : α → UInt64) (hmap : HMap α) (node : α) :
    Option (HMap α) := do
  let newer ← hmFirstTable hmap
  let newer ← hInsert hcode newer node
  let hmap ← hmGrow { hmap with newer := newer }
  hmHelpRehashing hcode hmap

def hmDelete (hcode : α → UInt64) (hmap : HMap α) (key : Probe α) :
    Option (HMap α × Option α) := do
  let hmap ← hmHelpRehashing hcode hmap
  match ← hLookup hcode hmap.newer key with
  | some link => do
      let (newer, node) ← hDetach hmap.newer link
      some ({ hmap with newer := newer }, some node)
  | none =>
      match ← hLookup hcode hmap.older key with
      | some link => do
          let (older, node) ← hDetach hmap.older link
          some ({ hmap with older := older }, some node)
      | none => some (hmap, none)

/-! Iteration: the callback answers whether to go on and updates its
argument. -/

def chainForeach (f : α → σ → Bool × σ) : List α → σ → Bool × σ
  | [], arg => (true, arg)
  | node :: next, arg =>
      match f node arg with
      | (true, arg) => chainForeach f next arg
      | (false, arg) => (false, arg)

def slotsForeach (f : α → σ → Bool × σ) (tab : List (List α)) :
    List Nat → σ → Option (Bool × σ)
  | [], arg => some (true, arg)
  | i :: rest, arg => do
      let chain ← tab[i]?
      match chainForeach f chain arg with
      | (true, arg) => slotsForeach f tab rest arg
      | (false, arg) => some (false, arg)

def hForeach (f : α → σ → Bool × σ) (htab : HTab α) (arg : σ) :
    Option (Bool × σ) :=
  match htab.tab with
  | none => some (true, arg)
  | some tab => slotsForeach f tab (List.range (htab.mask + 1)) arg

def hmForeach (f : α → σ → Bool × σ) (hmap : HMap α) (arg : σ) :
    Option σ := do
  let (go, arg) ← hForeach f hmap.newer arg
  if go then do
    let (_, arg) ← hForeach f hmap.older arg
    some arg
  else
    some arg

def hmSize (hmap : HMap α) : Nat := hmap.newer.size + hmap.older.size

/-- Both bucket arrays are freed; the nodes belong to the caller. -/
def hmClear (_hmap : HMap α) : HMap α := {}

/-! Well-formed tables. -/

def HTab.chains (htab : HTab α) : List (List α) := htab.tab.getD []

def HTab.nodes (htab : HTab α) : List α := htab.chains.flatten

@[simp] theorem HTab.nodes_empty : ({} : HTab α).nodes = [] := by
  rw [HTab.nodes, HTab.chains, Option.getD_none, List.flatten_nil]

structure HTab.WF (hcode : α → UInt64) (htab : HTab α) : Prop where
  unallocated : htab.tab = none → htab = {}
  capacity : ∀ tab, htab.tab = some tab → tab.length = htab.mask + 1
  power : ∃ k, htab.mask + 1 = 2 ^ k
  placed : ∀ (i : Nat) (chain : List α), htab.chains[i]? = some chain →
    ∀ node ∈ chain, slotOf (hcode node) htab.mask = i
  counted : htab.size = htab.nodes.length

theorem slotOf_lt (code : UInt64) (mask : Nat) : slotOf code mask < mask + 1 :=
  Nat.lt_succ_of_le Nat.and_le_right

namespace HTab.WF

variable {hcode : α → UInt64} {htab : HTab α}

theorem empty : HTab.WF hcode ({} : HTab α) where
  unallocated := fun _ => rfl
  capacity := by simp
  power := ⟨0, rfl⟩
  placed := by simp [chains]
  counted := rfl

theorem slot_exists {tab : List (List α)} (hwf : htab.WF hcode)
    (htabEq : htab.tab = some tab) (code : UInt64) :
    ∃ chain, tab[slotOf code htab.mask]? = some chain := by
  have hlt := slotOf_lt code htab.mask
  rw [← hwf.capacity tab htabEq] at hlt
  exact ⟨tab[slotOf code htab.mask], List.getElem?_eq_getElem hlt⟩

end HTab.WF

theorem hInit_spec (hcode : α → UInt64) (k : Nat) :
    ∃ htab : HTab α, hInit (2 ^ k) = some htab ∧ htab.WF hcode ∧
      htab.nodes = [] ∧ htab.tab.isSome ∧ htab.mask + 1 = 2 ^ k := by
  have hpos : 0 < 2 ^ k := Nat.two_pow_pos k
  have hassert : (2 ^ k - 1) &&& 2 ^ k = 0 := by
    rw [Nat.and_comm, Nat.and_two_pow_sub_one_eq_mod, Nat.mod_self]
  have hempty : (List.replicate (2 ^ k) ([] : List α)).flatten = [] := by simp
  refine ⟨_, by rw [hInit, if_pos ⟨hpos, hassert⟩], ?_, ?_, rfl, ?_⟩
  · refine ⟨by simp, ?_, ⟨k, ?_⟩, ?_, ?_⟩
    · intro tab htab
      cases htab
      simp only [List.length_replicate]
      omega
    · simp only
      omega
    · intro i chain hchain node hnode
      have hmem := List.mem_of_getElem? hchain
      simp only [HTab.chains, Option.getD_some, List.mem_replicate] at hmem
      rw [hmem.2] at hnode
      simp at hnode
    · simp [HTab.nodes, HTab.chains]
  · simp [HTab.nodes, HTab.chains]
  · simp only
    omega

theorem hInsert_spec {hcode : α → UInt64} {htab : HTab α} (node : α)
    (hwf : htab.WF hcode) (halloc : htab.tab.isSome) :
    ∃ htab', hInsert hcode htab node = some htab' ∧ htab'.WF hcode ∧
      htab'.nodes.Perm (node :: htab.nodes) ∧ htab'.tab.isSome ∧
      htab'.mask = htab.mask ∧ htab'.size = htab.size + 1 := by
  obtain ⟨tab, htabEq⟩ := Option.isSome_iff_exists.mp halloc
  obtain ⟨chain, hchain⟩ := hwf.slot_exists htabEq (hcode node)
  have hnodes : ((tab.set (slotOf (hcode node) htab.mask)
      (node :: chain)).flatten).Perm (node :: htab.nodes) := by
    simpa [HTab.nodes, HTab.chains, htabEq] using
      flatten_set_cons_perm node hchain
  refine ⟨{ htab with
      tab := some (tab.set (slotOf (hcode node) htab.mask) (node :: chain))
      size := htab.size + 1 },
    by simp [hInsert, htabEq, hchain], ?_, ?_, rfl, rfl, rfl⟩
  · refine ⟨by simp, ?_, hwf.power, ?_, ?_⟩
    · intro other hother
      cases hother
      simpa using hwf.capacity tab htabEq
    · intro i other hother member hmember
      simp only [HTab.chains, Option.getD_some, List.getElem?_set] at hother
      split at hother
      · next heq =>
        subst heq
        split at hother
        · cases hother
          rcases List.mem_cons.mp hmember with rfl | hmember
          · rfl
          · exact hwf.placed _ chain (by simpa [HTab.chains, htabEq]) _ hmember
        · cases hother
      · exact hwf.placed i other (by simpa [HTab.chains, htabEq]) _ hmember
    · simp only [HTab.nodes, HTab.chains, Option.getD_some]
      rw [hnodes.length_eq, hwf.counted]
      rfl
  · simpa [HTab.nodes, HTab.chains] using hnodes

theorem HTab.deref_eq_some {htab : HTab α} {link : Link} {node : α} :
    htab.deref link = some node ↔
      ∃ tab chain, htab.tab = some tab ∧ tab[link.slot]? = some chain ∧
        chain[link.depth]? = some node := by
  simp [HTab.deref, Option.bind_eq_some_iff]

theorem HTab.mem_nodes_of_deref {htab : HTab α} {link : Link} {node : α}
    (h : htab.deref link = some node) : node ∈ htab.nodes := by
  obtain ⟨tab, chain, htab, hchain, hnode⟩ := deref_eq_some.mp h
  simp only [nodes, chains, htab, Option.getD_some]
  exact mem_flatten_iff_getElem?.mpr
    ⟨link.slot, chain, hchain, List.mem_of_getElem? hnode⟩

def Probe.Matches (hcode : α → UInt64) (key : Probe α) (node : α) : Prop :=
  hcode node = key.hcode ∧ key.eq node = true

theorem hLookup_spec {hcode : α → UInt64} {htab : HTab α} (key : Probe α)
    (hwf : htab.WF hcode) :
    (hLookup hcode htab key = some none ∧
      ∀ node ∈ htab.nodes, ¬ key.Matches hcode node) ∨
    ∃ link node, hLookup hcode htab key = some (some link) ∧
      htab.deref link = some node ∧ key.Matches hcode node := by
  cases htabEq : htab.tab with
  | none =>
      left
      refine ⟨by simp [hLookup, htabEq], ?_⟩
      simp [HTab.nodes, HTab.chains, htabEq]
  | some tab =>
      obtain ⟨chain, hchain⟩ := hwf.slot_exists htabEq key.hcode
      cases hfind : chain.findIdx? (fun cur =>
          hcode cur == key.hcode && key.eq cur) with
      | none =>
          left
          refine ⟨by simp [hLookup, htabEq, hchain, hfind], ?_⟩
          intro node hnode hmatch
          simp only [HTab.nodes, HTab.chains, htabEq, Option.getD_some] at hnode
          obtain ⟨i, other, hother, hmem⟩ := mem_flatten_iff_getElem?.mp hnode
          have hslot := hwf.placed i other
            (by simpa [HTab.chains, htabEq] using hother) node hmem
          rw [hmatch.1] at hslot
          rw [hslot] at hchain
          rw [hchain] at hother
          cases hother
          have hmiss := List.findIdx?_eq_none_iff.mp hfind node hmem
          simp [hmatch.1, hmatch.2] at hmiss
      | some depth =>
          right
          have hdepth := List.findIdx?_eq_some_iff_getElem.mp hfind
          obtain ⟨hlt, hhit, _⟩ := hdepth
          refine ⟨⟨slotOf key.hcode htab.mask, depth⟩, chain[depth],
            by simp [hLookup, htabEq, hchain, hfind], ?_, ?_⟩
          · exact HTab.deref_eq_some.mpr
              ⟨tab, chain, htabEq, hchain, List.getElem?_eq_getElem hlt⟩
          · simpa [Probe.Matches] using hhit

theorem hDetach_spec {hcode : α → UInt64} {htab : HTab α} {link : Link}
    {node : α} (hwf : htab.WF hcode) (hderef : htab.deref link = some node) :
    ∃ htab', hDetach htab link = some (htab', node) ∧ htab'.WF hcode ∧
      htab.nodes.Perm (node :: htab'.nodes) ∧ htab'.tab.isSome ∧
      htab'.mask = htab.mask ∧ htab'.size + 1 = htab.size ∧
      ∀ (i : Nat) (chain : List α), htab'.chains[i]? = some chain →
        ∃ before, htab.chains[i]? = some before ∧ chain.Sublist before := by
  obtain ⟨tab, chain, htabEq, hchain, hnode⟩ := HTab.deref_eq_some.mp hderef
  have hnodes : htab.nodes.Perm (node ::
      (tab.set link.slot (chain.eraseIdx link.depth)).flatten) := by
    simpa [HTab.nodes, HTab.chains, htabEq] using
      flatten_set_eraseIdx_perm hchain hnode
  have hsub : ∀ (i : Nat) (other : List α),
      (tab.set link.slot (chain.eraseIdx link.depth))[i]? = some other →
      ∃ before, htab.chains[i]? = some before ∧ other.Sublist before := by
    intro i other hother
    simp only [HTab.chains, htabEq, Option.getD_some]
    rw [List.getElem?_set] at hother
    split at hother
    · next heq =>
      subst heq
      split at hother
      · cases hother
        exact ⟨chain, hchain, List.eraseIdx_sublist chain link.depth⟩
      · cases hother
    · exact ⟨other, hother, List.Sublist.refl other⟩
  have hsize : htab.size = (tab.set link.slot
      (chain.eraseIdx link.depth)).flatten.length + 1 := by
    rw [hwf.counted, hnodes.length_eq]
    rfl
  refine ⟨{ htab with
      tab := some (tab.set link.slot (chain.eraseIdx link.depth))
      size := htab.size - 1 },
    by simp [hDetach, htabEq, hchain, hnode], ?_, ?_, rfl, rfl, ?_, ?_⟩
  · refine ⟨by simp, ?_, hwf.power, ?_, ?_⟩
    · intro other hother
      cases hother
      simpa using hwf.capacity tab htabEq
    · intro i other hother member hmember
      obtain ⟨before, hbefore, hsublist⟩ := hsub i other hother
      exact hwf.placed i before hbefore member (hsublist.subset hmember)
    · simp only [HTab.nodes, HTab.chains, Option.getD_some]
      omega
  · simpa [HTab.nodes, HTab.chains] using hnodes
  · simp only
    omega
  · exact hsub

end MiniRedis.Store
