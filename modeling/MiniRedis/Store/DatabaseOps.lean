import MiniRedis.Store.DatabaseInv

namespace MiniRedis.Store

open MiniRedis.Data MiniRedis.Ds

/-! Each operation of the database replaces the slot of one key. -/

structure Stores (db db' : Database) (key : Bytes) (slot : Slot) : Prop where
  inv : db'.Inv
  stored : db'.stored = Function.update db.stored key slot

variable {db db' : Database} {p q : Ptr} {e e' : Entry}
  {due due' : Option Nat} {key : Bytes}

theorem Stores.trans {last : Database} {slot slot' : Slot}
    (h : Stores db db' key slot) (h' : Stores db' last key slot') :
    Stores db last key slot' := by
  refine ⟨h'.inv, ?_⟩
  rw [h'.stored, h.stored, Function.update_idem]

theorem Stores.stored_self {slot : Slot} (h : Stores db db' key slot) :
    db'.stored key = slot := by
  rw [h.stored, Function.update_self]

theorem Database.Holds.entry_unique (h : db.Holds p e due)
    (h' : db.Holds p e' due') : e' = e :=
  Option.some.inj (h'.entry.symm.trans h.entry)

theorem SameExcept.stores (hsame : SameExcept db db' p) (h : db.Inv)
    (h' : db'.Inv) (hold : db.Holds p e due) (hnew : db'.Holds p e' due')
    (hkey : e'.key = e.key) : Stores db db' e.key (some (e', due')) := by
  refine ⟨h', ?_⟩
  rw [hsame.stored_eq h h' e.key, ← hkey, h'.stored_of_holds hnew]
  · intro other _ hother
    rw [hold.entry_unique hother]
  · intro other _ hother
    rw [hnew.entry_unique hother, hkey]

theorem SameExcept.stores_none (hsame : SameExcept db db' p) (h : db.Inv)
    (h' : db'.Inv) (hold : db.Holds p e due) (hgone : p ∉ db'.map.nodes) :
    Stores db db' e.key none := by
  refine ⟨h', ?_⟩
  have hmiss : db'.stored e.key = none := by
    apply h'.stored_eq_none.mpr
    intro q hq hkey
    have hne : q ≠ p := fun heq => hgone (heq ▸ hq)
    have hlinked := (hsame.nodes q hne).mp hq
    rw [Database.key, hsame.ent q hlinked hne] at hkey
    exact hne (h.index.distinct q hlinked p hold.linked
      (hkey.trans (Database.key_eq hold.entry).symm))
  rw [hsame.stored_eq h h' e.key, hmiss]
  · intro other _ hother
    rw [hold.entry_unique hother]
  · intro other _ hother
    exact absurd hother.linked hgone

theorem SameExcept.stores_new (hsame : SameExcept db db' p) (h : db.Inv)
    (h' : db'.Inv) (hfresh : p ∉ db.map.nodes) (hnew : db'.Holds p e due) :
    Stores db db' e.key (some (e, due)) := by
  refine ⟨h', ?_⟩
  rw [hsame.stored_eq h h' e.key, h'.stored_of_holds hnew]
  · intro other _ hother
    exact absurd hother.linked hfresh
  · intro other _ hother
    rw [hnew.entry_unique hother]

/-! Writing an entry's value. -/

theorem Database.setEntry_self (db : Database) (p : Ptr) (ent : Option Entry) :
    (db.setEntry p ent).ent p = ent := by
  simp [Database.setEntry]

theorem Database.setEntry_other (db : Database) {p q : Ptr} (hne : q ≠ p)
    (ent : Option Entry) : (db.setEntry p ent).ent q = db.ent q := by
  simp [Database.setEntry, hne]

theorem SameExcept.setEntry (db : Database) (p : Ptr) (ent : Option Entry) :
    SameExcept db (db.setEntry p ent) p where
  nodes _ _ := Iff.rfl
  ent _ _ hne := db.setEntry_other hne ent
  timer _ _ _ := rfl

theorem setEntry_stores (e' : Entry) (h : db.Inv) (hholds : db.Holds p e due)
    (hkey : e'.key = e.key) (hhash : e'.hcode = e.hcode)
    (hzset : ∃ tree, e'.zset.Inv tree) :
    (db.setEntry p (some e')).Holds p e' due ∧
      Stores db (db.setEntry p (some e')) e.key (some (e', due)) := by
  have hself := db.setEntry_self p (some e')
  have hother := fun q (hne : q ≠ p) => db.setEntry_other hne (some e')
  have hinv : (db.setEntry p (some e')).Inv := by
    refine ⟨h.index.congr ?_ ?_, h.timers, h.disjoint, ?_, ?_⟩
    · intro q _
      by_cases hq : q = p
      · rw [hq, Database.hcode_eq hself, Database.hcode_eq hholds.entry, hhash]
      · rw [Database.hcode, hother q hq, Database.hcode]
    · intro q _
      by_cases hq : q = p
      · rw [hq, Database.key_eq hself, Database.key_eq hholds.entry, hkey]
      · rw [Database.key, hother q hq, Database.key]
    · intro q
      by_cases hq : q = p
      · rw [hq, hself]
        exact iff_of_true (List.mem_append_left _ hholds.linked) rfl
      · rw [hother q hq]
        exact h.owned q
    · intro q other hentry
      by_cases hq : q = p
      · rw [hq, hself] at hentry
        cases hentry
        exact ⟨hq ▸ (h.entries p e hholds.entry).1, hzset⟩
      · rw [hother q hq] at hentry
        exact h.entries q other hentry
  have hnew : (db.setEntry p (some e')).Holds p e' due :=
    ⟨hholds.linked, hself, hholds.timer⟩
  exact ⟨hnew, (SameExcept.setEntry db p (some e')).stores h hinv hholds hnew
    hkey⟩

/-! Timers. -/

def deadlineAfter (ttlMs : Int) (now : UInt64) : Option Nat :=
  if ttlMs < 0 then none else some (addUInt64 now.toNat (castUInt64 ttlMs))

theorem entrySetTtl_retimed (db : Database) {owners : List Ptr}
    (h : db.ttl.Linked owners) (hp : p ∈ owners) (ttlMs : Int) (now : UInt64) :
    ∃ ttl, entrySetTtl db p ttlMs now = some { db with ttl := ttl } ∧
      Retimed db.ttl ttl owners p (deadlineAfter ttlMs now) := by
  by_cases hneg : ttlMs < 0
  · simp only [entrySetTtl, deadlineAfter, if_pos hneg]
    cases hidx : db.ttl.index.idx p with
    | none =>
        exact ⟨db.ttl, rfl, h, (h.timer_eq_none hp).mpr hidx,
          fun _ _ _ => rfl⟩
    | some i =>
        obtain ⟨heap, hdelete, hretimed⟩ := heapDelete_timer h hp hidx
        refine ⟨{ heap with index := heap.index.write p none }, ?_, hretimed⟩
        simp [hdelete]
  · simp only [entrySetTtl, deadlineAfter, if_neg hneg]
    obtain ⟨heap, hupsert, hretimed⟩ := heapUpsert_timer h hp
      (addUInt64 now.toNat (castUInt64 ttlMs))
    exact ⟨heap, by simp [hupsert], hretimed⟩

theorem entrySetTtl_stores (h : db.Inv) (hholds : db.Holds p e due)
    (ttlMs : Int) (now : UInt64) :
    ∃ db', entrySetTtl db p ttlMs now = some db' ∧
      Stores db db' e.key (some (e, deadlineAfter ttlMs now)) := by
  obtain ⟨ttl, hset, hretimed⟩ :=
    entrySetTtl_retimed db h.timers hholds.linked ttlMs now
  have hinv : Database.Inv { db with ttl := ttl } :=
    ⟨h.index, hretimed.linked, h.disjoint, h.owned, h.entries⟩
  have hsame : SameExcept db { db with ttl := ttl } p :=
    ⟨fun _ _ => Iff.rfl, fun _ _ _ => rfl, hretimed.others⟩
  exact ⟨_, hset, hsame.stores h hinv hholds
    ⟨hholds.linked, hholds.entry, hretimed.timer⟩ rfl⟩

/-! Freeing an entry. -/

theorem Entry.clear_spec (h : ∃ tree, e.zset.Inv tree) :
    ∃ cleared, e.clear = some cleared := by
  obtain ⟨tree, htree⟩ := h
  by_cases htype : e.type = .zset
  · obtain ⟨zset, hclear⟩ := zsetClear_spec htree
    exact ⟨{ e with zset := zset }, by simp [Entry.clear, htype, hclear]⟩
  · exact ⟨e, by simp [Entry.clear, htype]⟩

/-- Everything is in order but for the entry `p`, which no structure owns. -/
structure Database.Orphan (db : Database) (p : Ptr) : Prop where
  index : db.map.Indexed db.hcode db.key strHash
  timers : db.ttl.Linked db.map.nodes
  disjoint : (p :: (db.map.nodes ++ db.pooled)).Nodup
  owned : ∀ q, q ∈ p :: (db.map.nodes ++ db.pooled) ↔ (db.ent q).isSome
  entries : ∀ q e, db.ent q = some e →
    q < db.alloc ∧ ∃ tree, e.zset.Inv tree

theorem Database.Orphan.unlinked (h : db.Orphan p) : p ∉ db.map.nodes :=
  fun hp => (List.nodup_cons.mp h.disjoint).1 (List.mem_append_left _ hp)

theorem Database.Orphan.entryDelSync (h : db.Orphan p) :
    entryDelSync db p = some (db.setEntry p none) := by
  obtain ⟨e, hentry⟩ := Option.isSome_iff_exists.mp
    ((h.owned p).mp List.mem_cons_self)
  obtain ⟨cleared, hclear⟩ := Entry.clear_spec (h.entries p e hentry).2
  simp [Store.entryDelSync, hentry, hclear]

theorem Database.Orphan.freed (h : db.Orphan p) :
    (db.setEntry p none).Inv := by
  obtain ⟨hfresh, hnodup⟩ := List.nodup_cons.mp h.disjoint
  have hself := db.setEntry_self p none
  have hother := fun q (hne : q ≠ p) => db.setEntry_other hne none
  have hne : ∀ q ∈ db.map.nodes, q ≠ p := fun q hq heq =>
    h.unlinked (heq ▸ hq)
  refine ⟨h.index.congr ?_ ?_, h.timers, hnodup, ?_, ?_⟩
  · intro q hq
    rw [Database.hcode, hother q (hne q hq), Database.hcode]
  · intro q hq
    rw [Database.key, hother q (hne q hq), Database.key]
  · intro q
    by_cases hq : q = p
    · rw [hq, hself]
      exact iff_of_false hfresh Bool.false_ne_true
    · rw [hother q hq, ← h.owned q, List.mem_cons]
      exact ⟨.inr, fun hmem => hmem.resolve_left hq⟩
  · intro q e hentry
    by_cases hq : q = p
    · rw [hq, hself] at hentry
      cases hentry
    · rw [hother q hq] at hentry
      exact h.entries q e hentry

theorem Database.Orphan.queued (h : db.Orphan p) {pool : Pool}
    (hpool : db.pool = some pool) :
    Database.Inv { db with
      pool := some { pool with queue := pool.queue ++ [p] } } := by
  have hpooled : db.pooled = pool.queue ++ pool.running := by
    simp [Database.pooled, hpool]
  have hperm : (db.map.nodes ++ (pool.queue ++ [p] ++ pool.running)).Perm
      (p :: (db.map.nodes ++ db.pooled)) := by
    rw [hpooled, List.append_assoc, List.singleton_append]
    exact (List.perm_middle.append_left _).trans List.perm_middle
  exact ⟨h.index, h.timers, hperm.nodup_iff.mpr h.disjoint,
    fun q => hperm.mem_iff.trans (h.owned q), h.entries⟩

structure Unlinked (db : Database) (p : Ptr) (map : HMap Ptr) (ttl : Heap Ptr) :
    Prop where
  index : map.Indexed db.hcode db.key strHash
  nodes : db.map.nodes.Perm (p :: map.nodes)
  retimed : Retimed db.ttl ttl db.map.nodes p none

namespace Unlinked

variable {map : HMap Ptr} {ttl : Heap Ptr}

theorem mem_iff (h : Unlinked db p map ttl) :
    q ∈ db.map.nodes ↔ q = p ∨ q ∈ map.nodes := by
  rw [h.nodes.mem_iff, List.mem_cons]

theorem timers (h : Unlinked db p map ttl) : ttl.Linked map.nodes := by
  have hp : p ∈ db.map.nodes := h.mem_iff.mpr (.inl rfl)
  apply h.retimed.linked.owners_congr
    ((h.retimed.linked.timer_eq_none hp).mp h.retimed.timer)
  intro q hne
  rw [h.mem_iff]
  exact ⟨.inr, fun hq => hq.resolve_left hne⟩

theorem orphan (h : Unlinked db p map ttl) (hinv : db.Inv) :
    Database.Orphan { db with map := map, ttl := ttl } p := by
  have hperm := h.nodes.append_right db.pooled
  exact ⟨h.index, h.timers, hperm.nodup_iff.mp hinv.disjoint,
    fun q => hperm.mem_iff.symm.trans (hinv.owned q), hinv.entries⟩

theorem sameExcept (h : Unlinked db p map ttl) {ent : Ptr → Option Entry}
    {pool : Option Pool} (hent : ∀ q, q ≠ p → ent q = db.ent q) :
    SameExcept db { db with map := map, ttl := ttl, ent := ent, pool := pool }
      p where
  nodes q hne := by
    rw [h.mem_iff]
    exact ⟨.inr, fun hq => hq.resolve_left hne⟩
  ent q _ hne := hent q hne
  timer q hq hne := h.retimed.others q hq hne

end Unlinked

theorem entryDel_stores (h : db.Inv) (hholds : db.Holds p e due)
    {map : HMap Ptr} (hindex : map.Indexed db.hcode db.key strHash)
    (hnodes : db.map.nodes.Perm (p :: map.nodes)) :
    ∃ db', entryDel { db with map := map } p = some db' ∧
      Stores db db' e.key none := by
  obtain ⟨ttl, hset, hretimed⟩ := entrySetTtl_retimed
    { db with map := map } h.timers hholds.linked (-1) 0
  have hunlinked : Unlinked db p map ttl := ⟨hindex, hnodes, hretimed⟩
  have horphan := hunlinked.orphan h
  have hsync := horphan.entryDelSync
  have hfreed := (hunlinked.sameExcept fun q hne => Database.setEntry_other
    { db with map := map, ttl := ttl } hne none).stores_none h
      horphan.freed hholds horphan.unlinked
  simp only [entryDel, hset, hholds.entry, Option.bind_eq_bind,
    Option.bind_some]
  cases hpool : db.pool with
  | none =>
      rw [hpool] at hsync hfreed
      exact ⟨_, hsync, hfreed⟩
  | some pool =>
      rw [hpool] at hsync hfreed
      simp only
      split
      · exact ⟨_, rfl, (hunlinked.sameExcept fun _ _ => rfl).stores_none h
          (horphan.queued hpool) hholds horphan.unlinked⟩
      · exact ⟨_, hsync, hfreed⟩

/-! Unlinking by key, by identity, and linking. -/

theorem entryEq_seeks (db : Database) (nodes : List Ptr) (key : Bytes) :
    (entryEq db (strHash key) key).Seeks nodes db.key strHash key where
  hcode := rfl
  eq _ _ := beq_iff_eq

/-- A lookup may move nodes between the tables of the map. -/
theorem Database.Inv.rehash (h : db.Inv) {map : HMap Ptr}
    (hindex : map.Indexed db.hcode db.key strHash)
    (hperm : map.nodes.Perm db.map.nodes) :
    Database.Inv { db with map := map } := by
  have hall := hperm.append_right db.pooled
  have hlinked : db.ttl.Linked map.nodes := by
    refine ⟨h.timers.valid, ?_, ?_⟩
    · intro item hitem
      exact hperm.mem_iff.mpr (h.timers.owned item hitem)
    · intro q hq
      exact h.timers.backed q (hperm.mem_iff.mp hq)
  exact ⟨hindex, hlinked, hall.nodup_iff.mpr h.disjoint,
    fun q => hall.mem_iff.trans (h.owned q), h.entries⟩

theorem hmLookup_stores (h : db.Inv) (key : Bytes) :
    ∃ map found, hmLookup db.hcode db.map (entryEq db (strHash key) key) =
        some (map, found) ∧
      Stores db { db with map := map } key (db.stored key) ∧
      ∀ p, found = some p ↔ p ∈ map.nodes ∧ db.key p = key := by
  obtain ⟨map, found, hlookup, hindex, hperm, hfound⟩ :=
    h.index.lookup (entryEq_seeks db db.map.nodes key)
  have hinv := h.rehash hindex hperm
  have hstored : Database.stored { db with map := map } = db.stored := by
    funext other
    apply Option.ext
    rintro ⟨e, due⟩
    rw [hinv.stored_eq_some, h.stored_eq_some]
    constructor
    · rintro ⟨p, ⟨hlinked, hentry, htimer⟩, hkey⟩
      exact ⟨p, ⟨hperm.mem_iff.mp hlinked, hentry, htimer⟩, hkey⟩
    · rintro ⟨p, ⟨hlinked, hentry, htimer⟩, hkey⟩
      exact ⟨p, ⟨hperm.mem_iff.mpr hlinked, hentry, htimer⟩, hkey⟩
  refine ⟨map, found, hlookup, ⟨hinv, ?_⟩, ?_⟩
  · rw [hstored, Function.update_eq_self]
  · intro p
    rw [hfound p, hperm.mem_iff]

theorem entryEq_delete (h : db.Inv) (hholds : db.Holds p e due) :
    ∃ map, hmDelete db.hcode db.map (entryEq db e.hcode e.key) =
        some (map, some p) ∧
      map.Indexed db.hcode db.key strHash ∧
      db.map.nodes.Perm (p :: map.nodes) := by
  have hkey := Database.key_eq hholds.entry
  have hhash : e.hcode = strHash e.key := by
    rw [← Database.hcode_eq hholds.entry, h.index.hashed p hholds.linked, hkey]
  have hprobe : (entryEq db e.hcode e.key).Seeks db.map.nodes db.key strHash
      (db.key p) := by
    rw [hhash, hkey]
    exact entryEq_seeks db _ _
  exact h.index.delete hholds.linked hprobe

theorem unlink_stores (h : db.Inv) (hholds : db.Holds p e due) :
    ∃ map db', hmDelete db.hcode db.map (entryEq db e.hcode e.key) =
        some (map, some p) ∧
      entryDel { db with map := map } p = some db' ∧
      Stores db db' e.key none := by
  obtain ⟨map, hdelete, hindex, hnodes⟩ := entryEq_delete h hholds
  obtain ⟨db', hdel, hstores⟩ := entryDel_stores h hholds hindex hnodes
  exact ⟨map, db', hdelete, hdel, hstores⟩

/-- The reaper's probe is the entry itself, which is the one with its key. -/
theorem hnodeSame_delete (h : db.Inv) (hholds : db.Holds p e due) :
    ∃ map, hmDelete db.hcode db.map (hnodeSame e.hcode p) = some (map, some p) ∧
      map.Indexed db.hcode db.key strHash ∧
      db.map.nodes.Perm (p :: map.nodes) := by
  apply h.index.delete hholds.linked
  refine ⟨?_, ?_⟩
  · rw [← h.index.hashed p hholds.linked, Database.hcode_eq hholds.entry]
    rfl
  · intro q hq
    simp only [hnodeSame, beq_iff_eq]
    exact ⟨fun heq => heq ▸ rfl, h.index.distinct q hq p hholds.linked⟩

theorem reapEntry_stores (h : db.Inv) (hholds : db.Holds p e due) :
    ∃ db', reapEntry db p = some db' ∧ Stores db db' e.key none := by
  obtain ⟨map, hdelete, hindex, hnodes⟩ := hnodeSame_delete h hholds
  obtain ⟨db', hdel, hstores⟩ := entryDel_stores h hholds hindex hnodes
  exact ⟨db', by simp [reapEntry, hholds.entry, hdelete, hdel], hstores⟩

section NewEntry

variable {map : HMap Ptr}

theorem Database.Inv.alloc_fresh (h : db.Inv) :
    db.alloc ∉ db.map.nodes ++ db.pooled := by
  rw [h.owned db.alloc]
  intro hsome
  obtain ⟨other, hentry⟩ := Option.isSome_iff_exists.mp hsome
  exact Nat.lt_irrefl _ (h.entries db.alloc other hentry).1

theorem Database.newEntry_self (db : Database) (e : Entry) :
    (db.newEntry e).1.ent db.alloc = some e :=
  db.setEntry_self db.alloc (some e)

theorem Database.newEntry_other (db : Database) (e : Entry)
    (hne : q ≠ db.alloc) : (db.newEntry e).1.ent q = db.ent q :=
  db.setEntry_other hne (some e)

theorem Database.Inv.link (h : db.Inv) (hmiss : db.stored e.key = none)
    (hhash : e.hcode = strHash e.key) :
    ∃ map, hmInsert (db.newEntry e).1.hcode db.map db.alloc = some map ∧
      map.Indexed (db.newEntry e).1.hcode (db.newEntry e).1.key strHash ∧
      map.nodes.Perm (db.alloc :: db.map.nodes) := by
  have hout : db.alloc ∉ db.map.nodes := fun hp =>
    h.alloc_fresh (List.mem_append_left _ hp)
  have hother : ∀ q ∈ db.map.nodes, (db.newEntry e).1.ent q = db.ent q := by
    intro q hq
    apply db.newEntry_other
    rintro rfl
    exact hout hq
  have hindex : db.map.Indexed (db.newEntry e).1.hcode (db.newEntry e).1.key
      strHash := by
    apply h.index.congr
    · intro q hq
      rw [Database.hcode, hother q hq, Database.hcode]
    · intro q hq
      rw [Database.key, hother q hq, Database.key]
  have hself := db.newEntry_self e
  apply hindex.insert hout
  · rw [Database.hcode_eq hself, Database.key_eq hself, hhash]
  · intro q hq
    rw [Database.key, hother q hq, Database.key_eq hself]
    exact h.stored_eq_none.mp hmiss q hq

theorem newEntry_sameExcept (h : db.Inv)
    (hnodes : map.nodes.Perm (db.alloc :: db.map.nodes)) :
    SameExcept db { (db.newEntry e).1 with map := map } db.alloc := by
  have hout : db.alloc ∉ db.map.nodes := fun hp =>
    h.alloc_fresh (List.mem_append_left _ hp)
  refine ⟨?_, fun q _ hq => db.newEntry_other e hq,
    fun q hq _ => (h.timers.write_fresh hout).2 q hq⟩
  intro q hq
  rw [hnodes.mem_iff, List.mem_cons]
  exact ⟨fun hin => hin.resolve_left hq, .inr⟩

theorem newEntry_inv (h : db.Inv)
    (hindex : map.Indexed (db.newEntry e).1.hcode (db.newEntry e).1.key strHash)
    (hnodes : map.nodes.Perm (db.alloc :: db.map.nodes))
    (hzset : ∃ tree, e.zset.Inv tree) :
    Database.Inv { (db.newEntry e).1 with map := map } := by
  have hout : db.alloc ∉ db.map.nodes := fun hp =>
    h.alloc_fresh (List.mem_append_left _ hp)
  have hperm := hnodes.append_right db.pooled
  refine ⟨hindex, ?_, ?_, ?_, ?_⟩
  · exact (h.timers.write_fresh hout).1.owners_congr
      (IndexMem.write_self _ db.alloc none) (newEntry_sameExcept h hnodes).nodes
  · exact hperm.nodup_iff.mpr
      (List.nodup_cons.mpr ⟨h.alloc_fresh, h.disjoint⟩)
  · intro q
    apply (hperm.mem_iff.trans List.mem_cons).trans
    by_cases hq : q = db.alloc
    · rw [hq, db.newEntry_self e]
      exact iff_of_true (.inl rfl) rfl
    · rw [db.newEntry_other e hq, ← h.owned q]
      exact ⟨fun hin => hin.resolve_left hq, .inr⟩
  · intro q other hentry
    by_cases hq : q = db.alloc
    · rw [hq, db.newEntry_self e] at hentry
      cases hentry
      exact ⟨hq ▸ Nat.lt_succ_self _, hzset⟩
    · rw [db.newEntry_other e hq] at hentry
      obtain ⟨hbound, hvalue⟩ := h.entries q other hentry
      exact ⟨Nat.lt_succ_of_lt hbound, hvalue⟩

theorem newEntry_stores (h : db.Inv) (hmiss : db.stored e.key = none)
    (hhash : e.hcode = strHash e.key) (hzset : ∃ tree, e.zset.Inv tree) :
    ∃ map, hmInsert (db.newEntry e).1.hcode db.map db.alloc = some map ∧
      Database.Holds { (db.newEntry e).1 with map := map } db.alloc e none ∧
      Stores db { (db.newEntry e).1 with map := map } e.key
        (some (e, none)) := by
  obtain ⟨map, hinsert, hindex, hnodes⟩ := h.link hmiss hhash
  have hsame := newEntry_sameExcept (e := e) h hnodes
  have hinv := newEntry_inv h hindex hnodes hzset
  have hlinked : db.alloc ∈ map.nodes :=
    hnodes.mem_iff.mpr List.mem_cons_self
  have htimer : Heap.timer (db.newEntry e).1.ttl db.alloc = none :=
    (hinv.timers.timer_eq_none hlinked).mpr
      (IndexMem.write_self _ db.alloc none)
  have hnew : Database.Holds { (db.newEntry e).1 with map := map } db.alloc e
      none := ⟨hlinked, db.newEntry_self e, htimer⟩
  exact ⟨map, hinsert, hnew, hsame.stores_new h hinv
    (fun hp => h.alloc_fresh (List.mem_append_left _ hp)) hnew⟩

end NewEntry

/-! Runs of the reaping loop and of the workers. -/

theorem Database.Inv.item_holds (h : db.Inv) {item : HeapItem Ptr}
    (hmem : item ∈ db.ttl.items) :
    ∃ e, db.Holds item.ref e (some item.val) := by
  have hlinked := h.timers.owned item hmem
  obtain ⟨e, hentry⟩ := h.exists_entry hlinked
  exact ⟨e, hlinked, hentry, (h.timers.timer_eq_some hlinked item.val).mpr hmem⟩

theorem Database.Inv.root_holds (h : db.Inv) {item : HeapItem Ptr}
    (hitem : db.ttl.items.head? = some item) :
    ∃ e, db.Holds item.ref e (some item.val) :=
  h.item_holds (List.mem_of_mem_head? (Option.mem_def.mpr hitem))

theorem live_eq_none (now : UInt64) {deadline : Nat}
    (hdue : deadline ≤ now.toNat) : live now (some (e, some deadline)) = none := by
  simp [live, overdue, hdue]

/-- A reaping pass only empties slots that are overdue. -/
theorem reapLoop_spec (now : UInt64) (works : Nat) (h : db.Inv) :
    ∃ db', reapLoop now works db = some db' ∧ db'.Inv ∧
      ∀ key, db'.stored key = db.stored key ∨
        (db'.stored key = none ∧ live now (db.stored key) = none) := by
  induction works generalizing db with
  | zero => exact ⟨db, rfl, h, fun _ => .inl rfl⟩
  | succ works ih =>
      cases hhead : db.ttl.items.head? with
      | none => exact ⟨db, by simp [reapLoop, hhead], h, fun _ => .inl rfl⟩
      | some item =>
          by_cases hdue : item.val ≤ now.toNat
          · obtain ⟨e, hholds⟩ := h.root_holds hhead
            obtain ⟨next, hreap, hstores⟩ := reapEntry_stores h hholds
            obtain ⟨db', hloop, hinv, hslots⟩ := ih hstores.inv
            refine ⟨db', by simp [reapLoop, hhead, hdue, hreap, hloop], hinv, ?_⟩
            intro key
            by_cases hkey : key = e.key
            · right
              rw [hkey, h.stored_of_holds hholds]
              refine ⟨?_, live_eq_none now hdue⟩
              rcases hslots e.key with hsame | hgone
              · rw [hsame, hstores.stored_self]
              · exact hgone.1
            · have hother : next.stored key = db.stored key := by
                rw [hstores.stored, Function.update_of_ne hkey]
              rw [← hother]
              exact hslots key
          · exact ⟨db, by simp [reapLoop, hhead, hdue], h, fun _ => .inl rfl⟩

theorem SameExcept.stored_eq_of_unlinked (hsame : SameExcept db db' p)
    (h : db.Inv) (h' : db'.Inv) (hold : p ∉ db.map.nodes)
    (hnew : p ∉ db'.map.nodes) : db'.stored = db.stored := by
  funext key
  apply Option.ext
  rintro ⟨e, due⟩
  rw [h'.stored_eq_some, h.stored_eq_some]
  constructor
  · rintro ⟨q, hholds, hkey⟩
    have hne : q ≠ p := fun heq => hnew (heq ▸ hholds.linked)
    exact ⟨q, (hsame.holds_iff hne).mp hholds, hkey⟩
  · rintro ⟨q, hholds, hkey⟩
    have hne : q ≠ p := fun heq => hold (heq ▸ hholds.linked)
    exact ⟨q, (hsame.holds_iff hne).mpr hholds, hkey⟩

theorem Database.Inv.repool (h : db.Inv) {pool : Option Pool}
    (hperm : (Database.pooled { db with pool := pool }).Perm db.pooled) :
    Database.Inv { db with pool := pool } := by
  have hall := hperm.append_left db.map.nodes
  exact ⟨h.index, h.timers, hall.nodup_iff.mpr h.disjoint,
    fun p => hall.mem_iff.trans (h.owned p), h.entries⟩

theorem workerTake_spec (h : db.Inv) :
    ∃ db', workerTake db = some db' ∧ db'.Inv ∧ db'.stored = db.stored := by
  unfold workerTake
  split
  next ent queue running hpool =>
    refine ⟨_, rfl, h.repool ?_, rfl⟩
    simp only [Database.pooled, hpool]
    exact List.perm_middle
  next => exact ⟨db, rfl, h, rfl⟩

theorem workerFinish_spec (h : db.Inv) (p : Ptr) :
    ∃ db', workerFinish db p = some db' ∧ db'.Inv ∧
      db'.stored = db.stored := by
  unfold workerFinish
  split
  next pool hpool =>
    split
    next hmem =>
      have hpooled : db.pooled = pool.queue ++ pool.running := by
        simp [Database.pooled, hpool]
      have hperm : (db.map.nodes ++ db.pooled).Perm
          (p :: (db.map.nodes ++ (pool.queue ++ pool.running.erase p))) := by
        rw [hpooled]
        exact ((((List.perm_cons_erase hmem).append_left _).trans
          List.perm_middle).append_left _).trans List.perm_middle
      have horphan : Database.Orphan { db with
          pool := some { pool with running := pool.running.erase p } } p :=
        ⟨h.index, h.timers, hperm.nodup_iff.mp h.disjoint,
          fun q => hperm.mem_iff.symm.trans (h.owned q), h.entries⟩
      have hsame : SameExcept db (Database.setEntry { db with
          pool := some { pool with running := pool.running.erase p } } p none)
          p :=
        ⟨fun _ _ => Iff.rfl, fun q _ hne => Database.setEntry_other _ hne none,
          fun _ _ _ => rfl⟩
      exact ⟨_, horphan.entryDelSync, horphan.freed,
        hsame.stored_eq_of_unlinked h horphan.freed horphan.unlinked
          horphan.unlinked⟩
    next => exact ⟨db, rfl, h, rfl⟩
  next => exact ⟨db, rfl, h, rfl⟩

/-! The same steps read backwards: what holds of a state they lead to. -/

theorem reapLoop_keeps {now : UInt64} {works : Nat} (h : db.Inv)
    (hresult : reapLoop now works db = some db') :
    db'.Inv ∧ ∀ key, db'.stored key = db.stored key ∨
      (db'.stored key = none ∧ live now (db.stored key) = none) := by
  obtain ⟨_, hloop, hkeeps⟩ := reapLoop_spec now works h
  rw [hresult] at hloop
  cases hloop
  exact hkeeps

theorem workerTake_keeps (h : db.Inv) (hresult : workerTake db = some db') :
    db'.Inv ∧ db'.stored = db.stored := by
  obtain ⟨_, htake, hkeeps⟩ := workerTake_spec h
  rw [hresult] at htake
  cases htake
  exact hkeeps

theorem workerFinish_keeps (h : db.Inv)
    (hresult : workerFinish db p = some db') :
    db'.Inv ∧ db'.stored = db.stored := by
  obtain ⟨_, hfinish, hkeeps⟩ := workerFinish_spec h p
  rw [hresult] at hfinish
  cases hfinish
  exact hkeeps

end MiniRedis.Store
