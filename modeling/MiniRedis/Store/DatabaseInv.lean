import MiniRedis.Ds.Timers
import MiniRedis.Ds.ZSetWalk
import MiniRedis.Store.Database

namespace MiniRedis.Store

open MiniRedis.Data MiniRedis.Ds

/-! What holds between the structures of a database, and what each operation
does to the entry stored under a key. -/

/-- The entries handed to the worker pool and not yet freed. -/
def Database.pooled (db : Database) : List Ptr :=
  match db.pool with
  | some pool => pool.queue ++ pool.running
  | none => []

structure Database.Inv (db : Database) : Prop where
  index : db.map.Indexed db.hcode db.key strHash
  timers : db.ttl.Linked db.map.nodes
  disjoint : (db.map.nodes ++ db.pooled).Nodup
  owned : ∀ p, p ∈ db.map.nodes ++ db.pooled ↔ (db.ent p).isSome
  entries : ∀ p e, db.ent p = some e →
    p < db.alloc ∧ ∃ tree, e.zset.Inv tree

abbrev Slot := Option (Entry × Option Nat)

def Database.stored (db : Database) (key : Bytes) : Slot := do
  let p ← db.map.nodes.find? fun p => db.key p == key
  let e ← db.ent p
  some (e, db.ttl.timer p)

def overdue (now : UInt64) (due : Option Nat) : Bool :=
  due.any fun deadline => decide (deadline ≤ now.toNat)

/-- A slot as a reader at time `now` may see it. -/
def live (now : UInt64) (slot : Slot) : Slot :=
  slot.filter fun content => !overdue now content.2

structure Database.Holds (db : Database) (p : Ptr) (e : Entry)
    (due : Option Nat) : Prop where
  linked : p ∈ db.map.nodes
  entry : db.ent p = some e
  timer : db.ttl.timer p = due

variable {db db' : Database} {p q : Ptr} {e e' : Entry} {due : Option Nat}
  {key : Bytes}

theorem Database.key_eq (h : db.ent p = some e) : db.key p = e.key := by
  simp [Database.key, h]

theorem Database.hcode_eq (h : db.ent p = some e) : db.hcode p = e.hcode := by
  simp [Database.hcode, h]

namespace Database.Inv

theorem empty (pool : Option Pool) (hpool : pool = none ∨ pool = some {}) :
    Database.Inv { pool := pool } := by
  have hpooled : Database.pooled { pool := pool } = [] := by
    rcases hpool with rfl | rfl <;> rfl
  refine ⟨HMap.Indexed.empty, Heap.Linked.empty _, ?_, ?_, ?_⟩
  · simp [hpooled, HMap.nodes]
  · simp [hpooled, HMap.nodes]
  · intro p e hentry
    cases hentry

theorem exists_entry (h : db.Inv) (hp : p ∈ db.map.nodes) :
    ∃ e, db.ent p = some e :=
  Option.isSome_iff_exists.mp
    ((h.owned p).mp (List.mem_append_left _ hp))

theorem nodup (h : db.Inv) : db.map.nodes.Nodup := h.index.inv.nodup

theorem stored_eq_some (h : db.Inv) :
    db.stored key = some (e, due) ↔ ∃ p, db.Holds p e due ∧ e.key = key := by
  constructor
  · intro hstored
    simp only [Database.stored, Option.bind_eq_bind, Option.bind_eq_some_iff,
      Option.some.injEq, Prod.mk.injEq] at hstored
    obtain ⟨p, hfind, e, hentry, rfl, hdue⟩ := hstored
    have hkey := List.find?_some hfind
    rw [beq_iff_eq, Database.key_eq hentry] at hkey
    exact ⟨p, ⟨List.mem_of_find?_eq_some hfind, hentry, hdue⟩, hkey⟩
  · rintro ⟨p, ⟨hlinked, hentry, hdue⟩, hkey⟩
    have hfind : db.map.nodes.find? (fun p => db.key p == key) = some p := by
      cases hfound : db.map.nodes.find? (fun p => db.key p == key) with
      | none =>
          have hmiss := List.find?_eq_none.mp hfound p hlinked
          rw [Database.key_eq hentry, hkey] at hmiss
          exact absurd (beq_self_eq_true key) hmiss
      | some q =>
          have hq := List.find?_some hfound
          rw [beq_iff_eq] at hq
          have hsame := h.index.distinct q (List.mem_of_find?_eq_some hfound) p
            hlinked (by rw [hq, Database.key_eq hentry, hkey])
          rw [hsame]
    simp [Database.stored, hfind, hentry, hdue]

theorem stored_eq_none (h : db.Inv) :
    db.stored key = none ↔ ∀ p ∈ db.map.nodes, db.key p ≠ key := by
  constructor
  · intro hnone p hp hkey
    obtain ⟨e, hentry⟩ := h.exists_entry hp
    have hsome := h.stored_eq_some.mpr
      ⟨p, ⟨hp, hentry, rfl⟩, (Database.key_eq hentry).symm.trans hkey⟩
    rw [hnone] at hsome
    cases hsome
  · intro hmiss
    cases hstored : db.stored key with
    | none => rfl
    | some slot =>
        obtain ⟨p, hholds, hkey⟩ := h.stored_eq_some.mp hstored
        exact absurd ((Database.key_eq hholds.entry).trans hkey)
          (hmiss p hholds.linked)

theorem stored_of_holds (h : db.Inv) (hholds : db.Holds p e due) :
    db.stored e.key = some (e, due) :=
  h.stored_eq_some.mpr ⟨p, hholds, rfl⟩

end Database.Inv

structure SameExcept (db db' : Database) (q : Ptr) : Prop where
  nodes : ∀ p, p ≠ q → (p ∈ db'.map.nodes ↔ p ∈ db.map.nodes)
  ent : ∀ p ∈ db.map.nodes, p ≠ q → db'.ent p = db.ent p
  timer : ∀ p ∈ db.map.nodes, p ≠ q → db'.ttl.timer p = db.ttl.timer p

theorem SameExcept.holds_iff (h : SameExcept db db' q) (hne : p ≠ q) :
    db'.Holds p e due ↔ db.Holds p e due := by
  constructor
  · rintro ⟨hlinked, hentry, htimer⟩
    have hp := (h.nodes p hne).mp hlinked
    exact ⟨hp, h.ent p hp hne ▸ hentry, h.timer p hp hne ▸ htimer⟩
  · rintro ⟨hlinked, hentry, htimer⟩
    exact ⟨(h.nodes p hne).mpr hlinked, (h.ent p hlinked hne).trans hentry,
      (h.timer p hlinked hne).trans htimer⟩

theorem SameExcept.stored_eq (hsame : SameExcept db db' q) (h : db.Inv)
    (h' : db'.Inv) (key : Bytes)
    (hold : ∀ e due, db.Holds q e due → e.key = key)
    (hnew : ∀ e due, db'.Holds q e due → e.key = key) :
    db'.stored = Function.update db.stored key (db'.stored key) := by
  funext other
  by_cases hother : other = key
  · rw [hother, Function.update_self]
  · rw [Function.update_of_ne hother]
    apply Option.ext
    rintro ⟨e, due⟩
    rw [h'.stored_eq_some, h.stored_eq_some]
    constructor
    · rintro ⟨p, hholds, rfl⟩
      have hne : p ≠ q := by
        rintro rfl
        exact hother (hnew e due hholds)
      exact ⟨p, (hsame.holds_iff hne).mp hholds, rfl⟩
    · rintro ⟨p, hholds, rfl⟩
      have hne : p ≠ q := by
        rintro rfl
        exact hother (hold e due hholds)
      exact ⟨p, (hsame.holds_iff hne).mpr hholds, rfl⟩

end MiniRedis.Store
