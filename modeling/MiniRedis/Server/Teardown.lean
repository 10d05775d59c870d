import MiniRedis.Server.Ownership
import MiniRedis.Store.Congruence

namespace MiniRedis.Server

open MiniRedis.Data MiniRedis.Ds MiniRedis.Store MiniRedis.Protocol

/-! A database whose large sets are torn down by the workers, beside one that
frees every value at once. -/

variable {strtod : Bytes → Double × Nat} {db twin db' : Database} {p : Ptr}
  {e : Entry} {due : Option Nat} {cmd : List Bytes} {out : Bytes} {clock : Clock}

/-- The twin has the same keys, linked and timed in the same way, and no
pool. -/
structure Twin (db twin : Database) : Prop where
  map : twin.map = db.map
  ttl : twin.ttl = db.ttl
  alloc : twin.alloc = db.alloc
  pool : twin.pool = none
  ent : ∀ p ∈ db.map.nodes, twin.ent p = db.ent p

namespace Twin

theorem hcode (h : Twin db twin) : ∀ p ∈ db.map.nodes, twin.hcode p = db.hcode p := by
  intro p hp
  rw [Database.hcode, Database.hcode, h.ent p hp]

theorem key (h : Twin db twin) : ∀ p ∈ db.map.nodes, twin.key p = db.key p := by
  intro p hp
  rw [Database.key, Database.key, h.ent p hp]

theorem alike (h : Twin db twin) (code : UInt64) (key : Bytes) :
    (entryEq db code key).Alike (entryEq twin code key) db.map.nodes where
  hcode := rfl
  eq p hp := by
    change (twin.key p == key) = (db.key p == key)
    rw [h.key p hp]

theorem remap (h : Twin db twin) {map : HMap Ptr}
    (hsub : ∀ q ∈ map.nodes, q ∈ db.map.nodes) :
    Twin { db with map := map } { twin with map := map } :=
  ⟨rfl, h.ttl, h.alloc, h.pool, fun q hq => h.ent q (hsub q hq)⟩

theorem retime (h : Twin db twin) (ttl : Heap Ptr) :
    Twin { db with ttl := ttl } { twin with ttl := ttl } :=
  ⟨h.map, rfl, h.alloc, h.pool, h.ent⟩

theorem setEntry (h : Twin db twin) (p : Ptr) (ent : Option Entry) :
    Twin (db.setEntry p ent) (twin.setEntry p ent) where
  map := h.map
  ttl := h.ttl
  alloc := h.alloc
  pool := h.pool
  ent q hq := by
    by_cases heq : q = p
    · rw [heq, Database.setEntry_self, Database.setEntry_self]
    · rw [Database.setEntry_other _ heq, Database.setEntry_other _ heq]
      exact h.ent q hq

theorem holds (h : Twin db twin) (hholds : db.Holds p e due) :
    twin.Holds p e due :=
  ⟨h.map ▸ hholds.linked, (h.ent p hholds.linked).trans hholds.entry,
    h.ttl ▸ hholds.timer⟩

theorem holds_iff (h : Twin db twin) : twin.Holds p e due ↔ db.Holds p e due := by
  refine ⟨?_, h.holds⟩
  intro hholds
  have hlinked : p ∈ db.map.nodes := h.map ▸ hholds.linked
  exact ⟨hlinked, (h.ent p hlinked).symm.trans hholds.entry, h.ttl ▸ hholds.timer⟩

end Twin

def Mirrors {β : Type} : Option (Database × β) → Option (Database × β) → Prop :=
  Option.Rel fun result mirrored =>
    Twin result.1 mirrored.1 ∧ result.2 = mirrored.2

theorem Mirrors.reply {β : Type} (h : Twin db twin) (reply : β) :
    Mirrors (some (db, reply)) (some (twin, reply)) :=
  .some ⟨h, rfl⟩

theorem Mirrors.of_some {β : Type} {x y : Option (Database × β)} {reply : β}
    (h : Mirrors x y) (hx : x = some (db, reply)) :
    ∃ twin, y = some (twin, reply) ∧ Twin db twin := by
  cases h with
  | none => cases hx
  | some hboth =>
      cases hx
      exact ⟨_, congrArg some (Prod.ext rfl hboth.2.symm), hboth.1⟩

theorem entrySetTtl_twin (h : twin.ttl = db.ttl) (p : Ptr) (ttlMs : Int)
    (now : UInt64) :
    entrySetTtl twin p ttlMs now = (entrySetTtl db p ttlMs now).map fun db =>
      { twin with ttl := db.ttl } := by
  unfold entrySetTtl
  rw [h]
  split
  · split
    · simp only [Option.bind_eq_bind, Option.map_bind]
      rfl
    · rw [Option.map_some, ← h]
  · simp only [Option.bind_eq_bind, Option.map_bind]
    rfl

/-- An entry that is off the map is freed in the twin, and freed or handed to the
pool beside it. -/
theorem entryDel_twin (h : Twin db twin) {ttl : Heap Ptr}
    (hset : entrySetTtl db p (-1) 0 = some { db with ttl := ttl })
    (hentry : db.ent p = some e) (hmirrored : twin.ent p = some e)
    (hzset : ∃ tree, e.zset.Inv tree) (hout : p ∉ db.map.nodes) :
    ∃ db' twin', entryDel db p = some db' ∧ entryDel twin p = some twin' ∧
      Twin db' twin' := by
  obtain ⟨cleared, hclear⟩ := Entry.clear_spec hzset
  have htimer : entrySetTtl twin p (-1) 0 = some { twin with ttl := ttl } := by
    rw [entrySetTtl_twin h.ttl, hset]
    rfl
  have hfreed : entryDel twin p =
      some (({ twin with ttl := ttl } : Database).setEntry p none) := by
    simp only [entryDel, htimer, Option.bind_eq_bind, Option.bind_some, hmirrored,
      h.pool, entryDelSync, hclear]
  have hother : ∀ q ∈ db.map.nodes,
      (({ twin with ttl := ttl } : Database).setEntry p none).ent q = db.ent q := by
    intro q hq
    rw [Database.setEntry_other _ fun heq : q = p => hout (heq ▸ hq)]
    exact h.ent q hq
  have hsync : entryDelSync { db with ttl := ttl } p =
      some (({ db with ttl := ttl } : Database).setEntry p none) := by
    simp only [entryDelSync, hentry, Option.bind_eq_bind, Option.bind_some, hclear]
  have hboth : Twin (({ db with ttl := ttl } : Database).setEntry p none)
      (({ twin with ttl := ttl } : Database).setEntry p none) :=
    (h.retime ttl).setEntry p none
  rw [hfreed]
  simp only [entryDel, hset, Option.bind_eq_bind, Option.bind_some, hentry]
  split
  next pool hpool =>
    split
    next => exact ⟨_, _, rfl, rfl, h.map, rfl, h.alloc, h.pool, hother⟩
    next => exact ⟨_, _, hsync, rfl, hboth⟩
  next => exact ⟨_, _, hsync, rfl, hboth⟩

theorem unlink_twin (h : Twin db twin) (hdb : db.Inv)
    (hholds : db.Holds p e due) {map : HMap Ptr}
    (hnodes : db.map.nodes.Perm (p :: map.nodes)) :
    ∃ db' twin', entryDel { db with map := map } p = some db' ∧
      entryDel { twin with map := map } p = some twin' ∧ Twin db' twin' := by
  obtain ⟨ttl, hset, -⟩ := entrySetTtl_retimed { db with map := map } hdb.timers
    hholds.linked (-1) 0
  have hsub : ∀ q ∈ map.nodes, q ∈ db.map.nodes := fun q hq =>
    hnodes.mem_iff.mpr (.tail _ hq)
  exact entryDel_twin (h.remap hsub) hset hholds.entry
    ((h.ent p hholds.linked).trans hholds.entry)
    (hdb.entries p e hholds.entry).2
    (List.nodup_cons.mp (hnodes.nodup_iff.mp hdb.nodup)).1

theorem dropEntry_twin (h : Twin db twin) (hdb : db.Inv)
    (hholds : db.Holds p e due) :
    ∃ db' twin', dropEntry db p = some db' ∧ dropEntry twin p = some twin' ∧
      Twin db' twin' := by
  obtain ⟨map, hdelete, -, hnodes⟩ := entryEq_delete hdb hholds
  have hmirrored : hmDelete twin.hcode twin.map (entryEq twin e.hcode e.key) =
      some (map, some p) := by
    rw [h.map, hmDelete_congr hdb.index.inv h.hcode (h.alike e.hcode e.key), hdelete]
  obtain ⟨db', twin', hdel, hdel', htwin⟩ := unlink_twin h hdb hholds hnodes
  refine ⟨db', twin', ?_, ?_, htwin⟩
  · simp only [dropEntry, hholds.entry, hdelete, Option.bind_eq_bind,
      Option.bind_some, hdel]
  · simp only [dropEntry, (h.holds hholds).entry, hmirrored, Option.bind_eq_bind,
      Option.bind_some, hdel']

theorem reapEntry_twin (h : Twin db twin) (hdb : db.Inv)
    (hholds : db.Holds p e due) :
    ∃ db' twin', reapEntry db p = some db' ∧ reapEntry twin p = some twin' ∧
      Twin db' twin' := by
  obtain ⟨map, hdelete, -, hnodes⟩ := hnodeSame_delete hdb hholds
  have hmirrored : hmDelete twin.hcode twin.map (hnodeSame e.hcode p) =
      some (map, some p) := by
    rw [h.map, hmDelete_congr hdb.index.inv h.hcode ⟨rfl, fun _ _ => rfl⟩, hdelete]
  obtain ⟨db', twin', hdel, hdel', htwin⟩ := unlink_twin h hdb hholds hnodes
  refine ⟨db', twin', ?_, ?_, htwin⟩
  · simp only [reapEntry, hholds.entry, hdelete, Option.bind_eq_bind,
      Option.bind_some, hdel]
  · simp only [reapEntry, (h.holds hholds).entry, hmirrored, Option.bind_eq_bind,
      Option.bind_some, hdel']

theorem reapLoop_twin (now : UInt64) (works : Nat) (h : Twin db twin)
    (hdb : db.Inv) :
    ∃ db' twin', reapLoop now works db = some db' ∧
      reapLoop now works twin = some twin' ∧ Twin db' twin' := by
  induction works generalizing db twin with
  | zero => exact ⟨db, twin, rfl, rfl, h⟩
  | succ works ih =>
      rw [reapLoop, reapLoop, h.ttl]
      split
      next item hhead =>
        split
        next =>
          obtain ⟨e, hholds⟩ := hdb.root_holds hhead
          obtain ⟨next, hnext, hstores⟩ := reapEntry_stores hdb hholds
          obtain ⟨_, mirrored, hreap, hreap', htwin⟩ := reapEntry_twin h hdb hholds
          rw [hnext] at hreap
          cases hreap
          simp only [hnext, hreap', Option.bind_eq_bind, Option.bind_some]
          exact ih htwin hstores.inv
        next => exact ⟨db, twin, rfl, rfl, h⟩
      next => exact ⟨db, twin, rfl, rfl, h⟩

/-! The handlers, side by side. -/

theorem rel_bind {α β γ δ : Type} {r : α → β → Prop} {s : γ → δ → Prop}
    {x : Option α} {y : Option β} {f : α → Option γ} {g : β → Option δ}
    (h : Option.Rel r x y)
    (hnext : ∀ a b, x = some a → r a b → Option.Rel s (f a) (g b)) :
    Option.Rel s (x >>= f) (y >>= g) := by
  cases h with
  | none => exact .none
  | some hab => exact hnext _ _ rfl hab

theorem rel_bind_same {α γ δ : Type} {s : γ → δ → Prop} {x : Option α}
    {f : α → Option γ} {g : α → Option δ}
    (hnext : ∀ a, x = some a → Option.Rel s (f a) (g a)) :
    Option.Rel s (x >>= f) (x >>= g) := by
  cases x with
  | none => exact .none
  | some a => exact hnext a rfl

theorem lookupEntry_twin (h : Twin db twin) (hdb : db.Inv) (key : Bytes)
    (now : UInt64) :
    Mirrors (lookupEntry db key now) (lookupEntry twin key now) := by
  obtain ⟨map, found, hlookup, hindex, hperm, hfound⟩ :=
    hdb.index.lookup (entryEq_seeks db db.map.nodes key)
  have hmirrored : hmLookup twin.hcode twin.map (entryEq twin (strHash key) key) =
      some (map, found) := by
    rw [h.map, hmLookup_congr hdb.index.inv h.hcode (h.alike _ key), hlookup]
  have hnext : Twin { db with map := map } { twin with map := map } :=
    h.remap fun q hq => hperm.mem_iff.mp hq
  have hinv := hdb.rehash hindex hperm
  simp only [lookupEntry, hlookup, hmirrored, Option.bind_eq_bind, Option.bind_some]
  cases found with
  | none => exact .reply hnext _
  | some p =>
      have hp : p ∈ map.nodes := hperm.mem_iff.mpr ((hfound p).mp rfl).1
      obtain ⟨e, hentry⟩ := hinv.exists_entry hp
      obtain ⟨db', twin', hdrop, hdrop', htwin⟩ :=
        dropEntry_twin hnext hinv ⟨hp, hentry, rfl⟩
      have hidx : twin.ttl.index = db.ttl.index := by rw [h.ttl]
      have hitems : twin.ttl.items = db.ttl.items := by rw [h.ttl]
      dsimp only
      rw [hidx]
      split
      next => exact .reply hnext _
      next i _ =>
        rw [hitems]
        refine rel_bind_same ?_
        intro item _
        split
        next =>
          rw [hdrop, hdrop']
          exact Mirrors.reply htwin none
        next => exact Mirrors.reply hnext (some p)

section Handlers

variable (h : Twin db twin) (hdb : db.Inv)

include h hdb

theorem Twin.afterLookup {β : Type} {key : Bytes} {now : UInt64}
    {f g : Database × Option Ptr → Option (Database × β)}
    (hnone : ∀ db' twin', Twin db' twin' → db'.Inv → db'.stored key = none →
      Mirrors (f (db', none)) (g (twin', none)))
    (hsome : ∀ db' twin' p e due, Twin db' twin' → db'.Inv → db'.Holds p e due →
      Mirrors (f (db', some p)) (g (twin', some p))) :
    Mirrors (lookupEntry db key now >>= f) (lookupEntry twin key now >>= g) := by
  refine rel_bind (lookupEntry_twin h hdb key now) ?_
  rintro ⟨db', ent⟩ ⟨twin', mirrored⟩ hlookup ⟨htwin, hent⟩
  cases hent
  have hfound := lookupEntry_found hdb hlookup
  cases ent with
  | none => exact hnone db' twin' htwin hfound.inv (hfound.absent rfl)
  | some p =>
      obtain ⟨e, due, hholds⟩ := hfound.present p rfl
      exact hsome db' twin' p e due htwin hfound.inv hholds

theorem doGet_twin : Mirrors (doGet cmd db out clock) (doGet cmd twin out clock) := by
  refine rel_bind_same fun key _ => h.afterLookup hdb ?_ ?_
  · intro db' twin' htwin _ _
    exact .reply htwin _
  · intro db' twin' p e due htwin _ hholds
    simp only [hholds.entry, (htwin.holds hholds).entry, Option.bind_eq_bind,
      Option.bind_some]
    split <;> exact .reply htwin _

theorem doDel_twin : Mirrors (doDel cmd db out clock) (doDel cmd twin out clock) := by
  refine rel_bind_same fun key _ => h.afterLookup hdb ?_ ?_
  · intro db' twin' htwin _ _
    exact .reply htwin _
  · intro db' twin' p e due htwin hinv hholds
    obtain ⟨_, _, hdrop, hdrop', hdropped⟩ := dropEntry_twin htwin hinv hholds
    simp only [hdrop, hdrop', Option.bind_eq_bind, Option.bind_some]
    exact .reply hdropped _

omit h hdb in
theorem createEntry_of_insert {map : HMap Ptr}
    (hinsert : hmInsert (db.newEntry e).1.hcode db.map db.alloc = some map) :
    createEntry db e = some ({ (db.newEntry e).1 with map := map }, db.alloc) := by
  rw [createEntry]
  exact congrArg (Option.bind · _) hinsert

/-- Both allocate the entry at one address. -/
theorem createEntry_twin (e : Entry) (hmiss : db.stored e.key = none)
    (hhash : e.hcode = strHash e.key) :
    ∃ db' twin', createEntry db e = some (db', db.alloc) ∧
      createEntry twin e = some (twin', db.alloc) ∧ Twin db' twin' ∧
      db.alloc ∈ db'.map.nodes := by
  have hout : ∀ q ∈ db.map.nodes, q ≠ db.alloc := by
    rintro q hq rfl
    exact hdb.alloc_fresh (List.mem_append_left _ hq)
  have hnew : ∀ q ∈ db.alloc :: db.map.nodes,
      (twin.newEntry e).1.ent q = (db.newEntry e).1.ent q := by
    intro q hq
    rcases List.mem_cons.mp hq with rfl | hq
    · rw [db.newEntry_self e, ← h.alloc, twin.newEntry_self e]
    · rw [db.newEntry_other e (hout q hq),
        twin.newEntry_other e (h.alloc ▸ hout q hq), h.ent q hq]
  have hcodes : ∀ q ∈ db.alloc :: db.map.nodes,
      (twin.newEntry e).1.hcode q = (db.newEntry e).1.hcode q := by
    intro q hq
    rw [Database.hcode, Database.hcode, hnew q hq]
  have hinv : db.map.Inv (db.newEntry e).1.hcode := by
    apply hdb.index.inv.congr
    intro q hq
    rw [Database.hcode, Database.hcode, db.newEntry_other e (hout q hq)]
  obtain ⟨map, hinsert, -, hnodes⟩ := hdb.link hmiss hhash
  have hmirrored : hmInsert (twin.newEntry e).1.hcode twin.map twin.alloc =
      some map := by
    rw [h.map, h.alloc, ← hinsert]
    exact hmInsert_congr hinv (fun hq => hout _ hq rfl) (hcodes _ (.head _))
      fun q hq => hcodes q (.tail _ hq)
  have httl : (twin.newEntry e).1.ttl = (db.newEntry e).1.ttl := by
    simp only [Database.newEntry, Database.setEntry, h.ttl, h.alloc]
  have halloc : (twin.newEntry e).1.alloc = (db.newEntry e).1.alloc :=
    congrArg (· + 1) h.alloc
  have hcreated := createEntry_of_insert hmirrored
  rw [h.alloc] at hcreated
  refine ⟨_, _, createEntry_of_insert hinsert, hcreated,
    ⟨rfl, httl, halloc, h.pool, ?_⟩, hnodes.mem_iff.mpr (.head _)⟩
  intro q hq
  exact hnew q (hnodes.mem_iff.mp hq)

omit hdb in
theorem Twin.setTtl (p : Ptr) (ttlMs : Int) (now : UInt64) :
    Option.Rel Twin (entrySetTtl db p ttlMs now) (entrySetTtl twin p ttlMs now) := by
  rw [entrySetTtl_twin h.ttl]
  cases hset : entrySetTtl db p ttlMs now with
  | none => exact .none
  | some db' =>
      obtain ⟨ttl, rfl⟩ := entrySetTtl_eq hset
      exact .some (h.retime ttl)

theorem doSet_twin : Mirrors (doSet cmd db out clock) (doSet cmd twin out clock) := by
  refine rel_bind_same fun key _ => rel_bind_same fun value _ =>
    h.afterLookup hdb ?_ ?_
  · intro db' twin' htwin hinv hmiss
    obtain ⟨_, _, hcreate, hcreate', hlast, -⟩ :=
      createEntry_twin htwin hinv
        { hcode := strHash key, key := key, type := .str, str := value } hmiss rfl
    dsimp only
    rw [hcreate, hcreate']
    exact .reply hlast _
  · intro db' twin' p e due htwin hinv hholds
    simp only [hholds.entry, (htwin.holds hholds).entry, Option.bind_eq_bind,
      Option.bind_some]
    split
    next => exact .reply htwin _
    next =>
      refine rel_bind ((htwin.setEntry p _).setTtl p (-1) clock.act) ?_
      intro last mirrored _ hlast
      exact Mirrors.reply hlast _

theorem doKeys_twin : Mirrors (doKeys db out) (doKeys twin out) := by
  have hkeys : hmForeach (keysCb twin) db.map (outArr out (hmSize db.map)) =
      hmForeach (keysCb db) db.map (outArr out (hmSize db.map)) := by
    rw [hmForeach_of_true (fun _ _ => rfl) hdb.index.inv,
      hmForeach_of_true (fun _ _ => rfl) hdb.index.inv]
    refine congrArg some (List.foldl_ext _ _ _ ?_)
    intro buffer q hq
    rw [keysCb, keysCb, h.key q hq]
  rw [doKeys, doKeys, h.map, hkeys]
  refine rel_bind_same fun reply _ => ?_
  exact Mirrors.reply h _

theorem doExpire_twin (unitMs : Int) : Mirrors (doExpire unitMs cmd db out clock)
    (doExpire unitMs cmd twin out clock) := by
  refine rel_bind_same fun arg _ => ?_
  split
  next => exact Mirrors.reply h _
  next n _ =>
    refine rel_bind_same fun key _ => h.afterLookup hdb ?_ ?_
    · intro db' twin' htwin _ _
      exact .reply htwin _
    · intro db' twin' p e due htwin hinv hholds
      obtain ⟨_, _, hdrop, hdrop', hdropped⟩ := dropEntry_twin htwin hinv hholds
      dsimp only
      split
      next =>
        simp only [hdrop, hdrop', Option.bind_eq_bind, Option.bind_some]
        exact .reply hdropped _
      next =>
        refine rel_bind_same fun ttlMs _ =>
          rel_bind (htwin.setTtl p ttlMs clock.act) ?_
        intro last mirrored _ hlast
        exact Mirrors.reply hlast _

theorem doTtl_twin (inMs : Bool) : Mirrors (doTtl inMs cmd db out clock)
    (doTtl inMs cmd twin out clock) := by
  refine rel_bind_same fun key _ => h.afterLookup hdb ?_ ?_
  · intro db' twin' htwin _ _
    exact .reply htwin _
  · intro db' twin' p e due htwin _ _
    dsimp only
    rw [htwin.ttl]
    split
    next => exact .reply htwin _
    next =>
      refine rel_bind_same fun item _ => ?_
      exact Mirrors.reply htwin _

theorem doPersist_twin : Mirrors (doPersist cmd db out clock)
    (doPersist cmd twin out clock) := by
  refine rel_bind_same fun key _ => h.afterLookup hdb ?_ ?_
  · intro db' twin' htwin _ _
    exact .reply htwin _
  · intro db' twin' p e due htwin _ _
    dsimp only
    rw [htwin.ttl]
    split
    next => exact .reply htwin _
    next =>
      refine rel_bind (htwin.setTtl p (-1) clock.act) ?_
      intro last mirrored _ hlast
      exact Mirrors.reply hlast _

theorem Twin.afterExpect {key : Bytes} {now : UInt64}
    {f g : Expected → Option (Database × Bytes)}
    (hnone : ∀ db' twin' out missing, Twin db' twin' → db'.Inv →
      (missing = true → db'.stored key = none) →
      Mirrors (f ⟨db', out, none, missing⟩) (g ⟨twin', out, none, missing⟩))
    (hsome : ∀ db' twin' p e due, Twin db' twin' → db'.Inv → db'.Holds p e due →
      Mirrors (f ⟨db', out, some p, false⟩) (g ⟨twin', out, some p, false⟩)) :
    Mirrors (expectZset db key out now >>= f) (expectZset twin key out now >>= g) := by
  simp only [expectZset, bind_assoc]
  refine h.afterLookup hdb ?_ ?_
  · intro db' twin' htwin hinv hmiss
    exact hnone db' twin' out true htwin hinv fun _ => hmiss
  · intro db' twin' p e due htwin hinv hholds
    simp only [hholds.entry, (htwin.holds hholds).entry, Option.bind_eq_bind,
      Option.bind_some]
    split
    next => exact hnone db' twin' _ false htwin hinv (by simp)
    next => exact hsome db' twin' p e due htwin hinv hholds

omit hdb in
theorem zaddInto_twin {name : Bytes} {score : Double} (hp : p ∈ db.map.nodes) :
    Mirrors (zaddInto db p name score out) (zaddInto twin p name score out) := by
  rw [zaddInto, zaddInto, h.ent p hp]
  refine rel_bind_same fun e _ => rel_bind_same fun result _ => ?_
  exact Mirrors.reply (h.setEntry p _) _

theorem doZadd_twin : Mirrors (doZadd strtod cmd db out clock)
    (doZadd strtod cmd twin out clock) := by
  refine rel_bind_same fun arg _ => ?_
  split
  next => exact Mirrors.reply h _
  next score _ =>
    refine rel_bind_same fun key _ => rel_bind_same fun name _ =>
      h.afterExpect hdb ?_ ?_
    · intro db' twin' out missing htwin hinv hmiss
      cases missing with
      | false => exact .reply htwin _
      | true =>
          obtain ⟨_, _, hcreate, hcreate', hlast, hlinked⟩ :=
            createEntry_twin htwin hinv
              { hcode := strHash key, key := key, type := .zset } (hmiss rfl) rfl
          dsimp only
          rw [hcreate, hcreate']
          exact zaddInto_twin hlast hlinked
    · intro db' twin' p e due htwin _ hholds
      exact zaddInto_twin htwin hholds.linked

theorem doZrem_twin : Mirrors (doZrem cmd db out clock)
    (doZrem cmd twin out clock) := by
  refine rel_bind_same fun key _ => rel_bind_same fun name _ =>
    h.afterExpect hdb ?_ ?_
  · intro db' twin' out missing htwin _ _
    exact .reply htwin _
  · intro db' twin' p e due htwin _ hholds
    simp only [hholds.entry, (htwin.holds hholds).entry, Option.bind_eq_bind,
      Option.bind_some]
    refine rel_bind_same fun result _ => rel_bind_same fun zset _ => ?_
    exact Mirrors.reply (htwin.setEntry p _) _

theorem doZscore_twin : Mirrors (doZscore cmd db out clock)
    (doZscore cmd twin out clock) := by
  refine rel_bind_same fun key _ => rel_bind_same fun name _ =>
    h.afterExpect hdb ?_ ?_
  · intro db' twin' out missing htwin _ _
    exact .reply htwin _
  · intro db' twin' p e due htwin _ hholds
    simp only [hholds.entry, (htwin.holds hholds).entry, Option.bind_eq_bind,
      Option.bind_some]
    refine rel_bind_same fun result _ => ?_
    split <;> exact Mirrors.reply (htwin.setEntry p _) _

theorem doZquery_twin : Mirrors (doZquery strtod cmd db out clock)
    (doZquery strtod cmd twin out clock) := by
  refine rel_bind_same fun arg _ => ?_
  split
  next => exact Mirrors.reply h _
  next score _ =>
    refine rel_bind_same fun offset _ => rel_bind_same fun limit _ => ?_
    split
    next =>
      refine rel_bind_same fun key _ => rel_bind_same fun name _ =>
        h.afterExpect hdb ?_ ?_
      · intro db' twin' out missing htwin _ _
        exact .reply htwin _
      · intro db' twin' p e due htwin _ hholds
        dsimp only
        split
        next => exact .reply htwin _
        next =>
          simp only [hholds.entry, (htwin.holds hholds).entry, Option.bind_eq_bind,
            Option.bind_some]
          refine rel_bind_same fun reply _ => ?_
          exact Mirrors.reply htwin _
    next => exact Mirrors.reply h _

theorem doRequest_twin : Mirrors (doRequest strtod cmd db out clock)
    (doRequest strtod cmd twin out clock) := by
  unfold doRequest
  split
  next => exact .reply h _
  next =>
    split
    next handler _ =>
      cases handler with
      | get => exact doGet_twin h hdb
      | set => exact doSet_twin h hdb
      | del => exact doDel_twin h hdb
      | keys => exact doKeys_twin h hdb
      | expire unitMs => exact doExpire_twin h hdb unitMs
      | ttl inMs => exact doTtl_twin h hdb inMs
      | persist => exact doPersist_twin h hdb
      | zadd => exact doZadd_twin h hdb
      | zrem => exact doZrem_twin h hdb
      | zscore => exact doZscore_twin h hdb
      | zquery => exact doZquery_twin h hdb
    next => exact .reply h _

end Handlers

end MiniRedis.Server
