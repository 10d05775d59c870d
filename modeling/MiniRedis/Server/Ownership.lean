import MiniRedis.Server.DatabaseRuns
import MiniRedis.Store.Ownership

namespace MiniRedis.Server

open MiniRedis.Data MiniRedis.Ds MiniRedis.Store MiniRedis.Protocol

/-! Every step of the database is a trace of ownership events. -/

variable {strtod : Bytes → Double × Nat} {db db' : Database} {key : Bytes}
  {cmd : List Bytes} {out out' : Bytes} {clock : Clock} {p : Ptr}

theorem dropEntry_traced {e : Entry} {due : Option Nat} (h : db.Inv)
    (hholds : db.Holds p e due) (hdrop : dropEntry db p = some db') :
    Traced db db' := by
  obtain ⟨map, hdelete, -, hnodes⟩ := entryEq_delete h hholds
  simp only [dropEntry, hholds.entry, hdelete, Option.bind_eq_bind,
    Option.bind_some] at hdrop
  have hmap : Traced db { db with map := map } :=
    .map fun q hq => hnodes.mem_iff.mpr (List.mem_cons_of_mem _ hq)
  exact hmap.trans (entryDel_traced hdrop (h.not_pooled hholds.linked))

structure Found (db db' : Database) (key : Bytes) (ent : Option Ptr) :
    Prop where
  traced : Traced db db'
  inv : db'.Inv
  absent : ent = none → db'.stored key = none
  present : ∀ p, ent = some p → ∃ e due, db'.Holds p e due

theorem lookupEntry_found {ent : Option Ptr} {now : UInt64} (h : db.Inv)
    (hlookup : lookupEntry db key now = some (db', ent)) :
    Found db db' key ent := by
  have htraced : Traced db db' := by
    obtain ⟨map, found, hmap, hindex, hperm, hfound⟩ :=
      h.index.lookup (entryEq_seeks db db.map.nodes key)
    have hinv := h.rehash hindex hperm
    have hrehashed : Traced db { db with map := map } :=
      .map fun q hq => hperm.mem_iff.mp hq
    simp only [lookupEntry, hmap, Option.bind_eq_bind, Option.bind_some]
      at hlookup
    split at hlookup
    next =>
      cases hlookup
      exact hrehashed
    next p =>
      have hp : p ∈ map.nodes := hperm.mem_iff.mpr ((hfound p).mp rfl).1
      split at hlookup
      next =>
        cases hlookup
        exact hrehashed
      next i hidx =>
        obtain ⟨item, hitem, hexpire⟩ := Option.bind_eq_some_iff.mp hlookup
        split at hexpire
        next =>
          obtain ⟨dropped, hdrop, hdone⟩ := Option.bind_eq_some_iff.mp hexpire
          cases hdone
          obtain ⟨e, hentry⟩ := hinv.exists_entry hp
          exact hrehashed.trans
            (dropEntry_traced hinv ⟨hp, hentry, rfl⟩ hdrop)
        next =>
          cases hexpire
          exact hrehashed
  obtain ⟨other, found, hspec, hlooked⟩ := lookupEntry_spec h key now
  rw [hlookup] at hspec
  cases hspec
  cases hlooked with
  | absent hstores hslot =>
      exact ⟨htraced, hstores.inv, fun _ => hstores.stored_self, by simp⟩
  | present hstores hholds hkey hslot =>
      refine ⟨htraced, hstores.inv, by simp, ?_⟩
      intro q hq
      cases hq
      exact ⟨_, _, hholds⟩

theorem createEntry_traced {e : Entry} (h : db.Inv)
    (hmiss : db.stored e.key = none) (hhash : e.hcode = strHash e.key)
    (hcreate : createEntry db e = some (db', p)) :
    Traced db db' ∧ ∃ e, db'.ent p = some e := by
  obtain ⟨map, hinsert, -, hnodes⟩ := h.link hmiss hhash
  have hresult : createEntry db e =
      some ({ (db.newEntry e).1 with map := map }, db.alloc) := by
    rw [createEntry]
    exact congrArg (Option.bind · _) hinsert
  rw [hresult] at hcreate
  cases hcreate
  exact ⟨newEntry_traced hnodes, e, db.newEntry_self e⟩

section Handlers

variable (h : db.Inv)

include h

theorem doGet_traced (hresult : doGet cmd db out clock = some (db', out')) :
    Traced db db' := by
  simp only [doGet, Option.bind_eq_bind, Option.bind_eq_some_iff] at hresult
  obtain ⟨key, -, ⟨mid, ent⟩, hlookup, hreply⟩ := hresult
  have hfound := lookupEntry_found h hlookup
  cases ent with
  | none =>
      cases hreply
      exact hfound.traced
  | some p =>
      obtain ⟨e, -, hreply⟩ := Option.bind_eq_some_iff.mp hreply
      split at hreply <;> cases hreply <;> exact hfound.traced

theorem doSet_traced (hresult : doSet cmd db out clock = some (db', out')) :
    Traced db db' := by
  simp only [doSet, Option.bind_eq_bind, Option.bind_eq_some_iff] at hresult
  obtain ⟨key, -, value, -, ⟨mid, ent⟩, hlookup, hreply⟩ := hresult
  have hfound := lookupEntry_found h hlookup
  cases ent with
  | none =>
      obtain ⟨⟨last, p⟩, hcreate, hreply⟩ := Option.bind_eq_some_iff.mp hreply
      cases hreply
      exact hfound.traced.trans
        (createEntry_traced hfound.inv (hfound.absent rfl) rfl hcreate).1
  | some p =>
      obtain ⟨e, hentry, hreply⟩ := Option.bind_eq_some_iff.mp hreply
      split at hreply
      next =>
        cases hreply
        exact hfound.traced
      next =>
        obtain ⟨last, httl, hreply⟩ := Option.bind_eq_some_iff.mp hreply
        cases hreply
        exact hfound.traced.trans
          ((Traced.setEntry _ hentry).trans (entrySetTtl_traced httl))

theorem doDel_traced (hresult : doDel cmd db out clock = some (db', out')) :
    Traced db db' := by
  simp only [doDel, Option.bind_eq_bind, Option.bind_eq_some_iff] at hresult
  obtain ⟨key, -, ⟨mid, ent⟩, hlookup, hreply⟩ := hresult
  have hfound := lookupEntry_found h hlookup
  cases ent with
  | none =>
      cases hreply
      exact hfound.traced
  | some p =>
      obtain ⟨last, hdrop, hreply⟩ := Option.bind_eq_some_iff.mp hreply
      cases hreply
      obtain ⟨e, due, hholds⟩ := hfound.present p rfl
      exact hfound.traced.trans (dropEntry_traced hfound.inv hholds hdrop)

theorem doExpire_traced {unitMs : Int}
    (hresult : doExpire unitMs cmd db out clock = some (db', out')) :
    Traced db db' := by
  simp only [doExpire, Option.bind_eq_bind, Option.bind_eq_some_iff] at hresult
  obtain ⟨arg, -, hreply⟩ := hresult
  split at hreply
  next =>
    cases hreply
    exact .refl _
  next n _ =>
    simp only [Option.bind_eq_some_iff] at hreply
    obtain ⟨key, -, ⟨mid, ent⟩, hlookup, hreply⟩ := hreply
    have hfound := lookupEntry_found h hlookup
    cases ent with
    | none =>
        cases hreply
        exact hfound.traced
    | some p =>
        dsimp only at hreply
        split at hreply
        next =>
          obtain ⟨last, hdrop, hreply⟩ := Option.bind_eq_some_iff.mp hreply
          cases hreply
          obtain ⟨e, due, hholds⟩ := hfound.present p rfl
          exact hfound.traced.trans (dropEntry_traced hfound.inv hholds hdrop)
        next =>
          simp only [Option.bind_eq_some_iff] at hreply
          obtain ⟨ttlMs, -, last, httl, hreply⟩ := hreply
          cases hreply
          exact hfound.traced.trans (entrySetTtl_traced httl)

theorem doTtl_traced {inMs : Bool}
    (hresult : doTtl inMs cmd db out clock = some (db', out')) :
    Traced db db' := by
  simp only [doTtl, Option.bind_eq_bind, Option.bind_eq_some_iff] at hresult
  obtain ⟨key, -, ⟨mid, ent⟩, hlookup, hreply⟩ := hresult
  have hfound := lookupEntry_found h hlookup
  cases ent with
  | none =>
      cases hreply
      exact hfound.traced
  | some p =>
      dsimp only at hreply
      split at hreply
      next =>
        cases hreply
        exact hfound.traced
      next =>
        obtain ⟨item, -, hreply⟩ := Option.bind_eq_some_iff.mp hreply
        cases hreply
        exact hfound.traced

theorem doPersist_traced
    (hresult : doPersist cmd db out clock = some (db', out')) :
    Traced db db' := by
  simp only [doPersist, Option.bind_eq_bind, Option.bind_eq_some_iff]
    at hresult
  obtain ⟨key, -, ⟨mid, ent⟩, hlookup, hreply⟩ := hresult
  have hfound := lookupEntry_found h hlookup
  cases ent with
  | none =>
      cases hreply
      exact hfound.traced
  | some p =>
      dsimp only at hreply
      split at hreply
      next =>
        cases hreply
        exact hfound.traced
      next =>
        obtain ⟨last, httl, hreply⟩ := Option.bind_eq_some_iff.mp hreply
        cases hreply
        exact hfound.traced.trans (entrySetTtl_traced httl)

theorem expectZset_found {now : UInt64} {found : Expected}
    (hexpect : expectZset db key out now = some found) :
    Traced db found.db ∧ found.db.Inv ∧
      (found.missing = true → found.db.stored key = none) := by
  simp only [expectZset, Option.bind_eq_bind, Option.bind_eq_some_iff]
    at hexpect
  obtain ⟨⟨mid, ent⟩, hlookup, hreply⟩ := hexpect
  have hfound := lookupEntry_found h hlookup
  cases ent with
  | none =>
      cases hreply
      exact ⟨hfound.traced, hfound.inv, fun _ => hfound.absent rfl⟩
  | some p =>
      obtain ⟨e, -, hreply⟩ := Option.bind_eq_some_iff.mp hreply
      split at hreply <;> cases hreply <;>
        exact ⟨hfound.traced, hfound.inv, by simp⟩

omit h in
theorem zaddInto_traced {name : Bytes} {score : Double}
    (hresult : zaddInto db p name score out = some (db', out')) :
    Traced db db' := by
  simp only [zaddInto, Option.bind_eq_bind, Option.bind_eq_some_iff] at hresult
  obtain ⟨e, hentry, ⟨zset, added⟩, -, hreply⟩ := hresult
  cases hreply
  exact .setEntry _ hentry

theorem doZadd_traced
    (hresult : doZadd strtod cmd db out clock = some (db', out')) :
    Traced db db' := by
  simp only [doZadd, Option.bind_eq_bind, Option.bind_eq_some_iff] at hresult
  obtain ⟨arg, -, hreply⟩ := hresult
  split at hreply
  next =>
    cases hreply
    exact .refl _
  next score _ =>
    simp only [Option.bind_eq_some_iff] at hreply
    obtain ⟨key, -, name, -, ⟨mid, out, ent, missing⟩, hexpect, hreply⟩ :=
      hreply
    obtain ⟨htraced, hinv, habsent⟩ := expectZset_found h hexpect
    cases ent with
    | some p => exact htraced.trans (zaddInto_traced hreply)
    | none =>
        cases missing with
        | false =>
            cases hreply
            exact htraced
        | true =>
            obtain ⟨⟨last, p⟩, hcreate, hreply⟩ :=
              Option.bind_eq_some_iff.mp hreply
            have hcreated :=
              (createEntry_traced hinv (habsent rfl) rfl hcreate).1
            exact htraced.trans (hcreated.trans (zaddInto_traced hreply))

theorem doZrem_traced (hresult : doZrem cmd db out clock = some (db', out')) :
    Traced db db' := by
  simp only [doZrem, Option.bind_eq_bind, Option.bind_eq_some_iff] at hresult
  obtain ⟨key, -, name, -, ⟨mid, out, ent, missing⟩, hexpect, hreply⟩ := hresult
  obtain ⟨htraced, hinv, habsent⟩ := expectZset_found h hexpect
  cases ent with
  | none =>
      cases hreply
      exact htraced
  | some p =>
      simp only [Option.bind_eq_some_iff] at hreply
      obtain ⟨e, hentry, ⟨zset, znode⟩, -, removed, -, hreply⟩ := hreply
      cases hreply
      exact htraced.trans (.setEntry _ hentry)

theorem doZscore_traced
    (hresult : doZscore cmd db out clock = some (db', out')) :
    Traced db db' := by
  simp only [doZscore, Option.bind_eq_bind, Option.bind_eq_some_iff] at hresult
  obtain ⟨key, -, name, -, ⟨mid, out, ent, missing⟩, hexpect, hreply⟩ := hresult
  obtain ⟨htraced, hinv, habsent⟩ := expectZset_found h hexpect
  cases ent with
  | none =>
      cases hreply
      exact htraced
  | some p =>
      simp only [Option.bind_eq_some_iff] at hreply
      obtain ⟨e, hentry, ⟨zset, znode⟩, -, hreply⟩ := hreply
      have hwritten := htraced.trans
        (.setEntry { e with zset := zset } hentry)
      cases znode <;> cases hreply <;> exact hwritten

theorem doZquery_traced
    (hresult : doZquery strtod cmd db out clock = some (db', out')) :
    Traced db db' := by
  simp only [doZquery, Option.bind_eq_bind, Option.bind_eq_some_iff] at hresult
  obtain ⟨arg, -, hreply⟩ := hresult
  split at hreply
  next =>
    cases hreply
    exact .refl _
  next score _ =>
    simp only [Option.bind_eq_some_iff] at hreply
    obtain ⟨offset, -, limit, -, hreply⟩ := hreply
    split at hreply
    next offset limit _ _ =>
      simp only [Option.bind_eq_some_iff] at hreply
      obtain ⟨key, -, name, -, ⟨mid, out, ent, missing⟩, hexpect, hreply⟩ :=
        hreply
      obtain ⟨htraced, hinv, habsent⟩ := expectZset_found h hexpect
      cases ent with
      | none =>
          cases hreply
          exact htraced
      | some p =>
          dsimp only at hreply
          split at hreply
          next =>
            cases hreply
            exact htraced
          next =>
            simp only [Option.bind_eq_some_iff] at hreply
            obtain ⟨e, -, reply, -, hreply⟩ := hreply
            cases hreply
            exact htraced
    next =>
      cases hreply
      exact .refl _

theorem doRequest_traced
    (hresult : doRequest strtod cmd db out clock = some (db', out')) :
    Traced db db' := by
  unfold doRequest at hresult
  split at hresult
  next =>
    cases hresult
    exact .refl _
  next verb args =>
    split at hresult
    next handler _ =>
      cases handler with
      | get => exact doGet_traced h hresult
      | set => exact doSet_traced h hresult
      | del => exact doDel_traced h hresult
      | keys =>
          rw [Handler.run, doKeys_eq h] at hresult
          cases hresult
          exact .refl _
      | expire unitMs => exact doExpire_traced h hresult
      | ttl inMs => exact doTtl_traced h hresult
      | persist => exact doPersist_traced h hresult
      | zadd => exact doZadd_traced h hresult
      | zrem => exact doZrem_traced h hresult
      | zscore => exact doZscore_traced h hresult
      | zquery => exact doZquery_traced h hresult
    next =>
      cases hresult
      exact .refl _

end Handlers

theorem DatabaseStep.traced {action : DatabaseAction}
    (hstep : DatabaseStep strtod db action db') (h : db.Inv) : Traced db db' := by
  cases hstep with
  | request cmd out clock result => exact doRequest_traced h result
  | reap now works _ result => exact reapLoop_traced now works h result
  | take result => exact workerTake_traced result
  | finish ent result => exact workerFinish_traced result

end MiniRedis.Server
