import MiniRedis.Server.RequestSpec

namespace MiniRedis.Server

open MiniRedis.Data MiniRedis.Ds MiniRedis.Store MiniRedis.Protocol

/-! The sorted-set commands execute their requests. -/

variable {db db' : Database} {key out : Bytes} {p : Ptr} {e : Entry}
  {due : Option Nat}

inductive Expects (db : Database) (key out : Bytes) (now : UInt64) :
    Expected → Prop
  | missing {db' : Database} (hstores : Stores db db' key none)
      (hslot : live now (db.stored key) = none) :
      Expects db key out now ⟨db', out, none, true⟩
  | wrong {db' : Database} {e : Entry} {due : Option Nat}
      (hstores : Stores db db' key (some (e, due)))
      (hslot : live now (db.stored key) = some (e, due))
      (htype : e.type ≠ .zset) :
      Expects db key out now ⟨db', out ++ wrongtype.encode, none, false⟩
  | found {db' : Database} {p : Ptr} {e : Entry} {due : Option Nat}
      (hstores : Stores db db' key (some (e, due)))
      (hslot : live now (db.stored key) = some (e, due))
      (htype : e.type = .zset) (hholds : db'.Holds p e due)
      (hkey : e.key = key) : Expects db key out now ⟨db', out, some p, false⟩

theorem expectZset_spec (h : db.Inv) (key out : Bytes) (now : UInt64) :
    ∃ r, expectZset db key out now = some r ∧ Expects db key out now r := by
  obtain ⟨db', ent, hlookup, hlooked⟩ := lookupEntry_spec h key now
  simp only [expectZset, hlookup, Option.bind_eq_bind, Option.bind_some]
  cases hlooked with
  | absent hstores hslot => exact ⟨_, rfl, .missing hstores hslot⟩
  | present hstores hholds hkey hslot =>
      simp only [hholds.entry, Option.bind_some]
      split
      next htype =>
        rw [outErr_eq]
        exact ⟨_, rfl, .wrong hstores hslot htype⟩
      next htype =>
        exact ⟨_, rfl, .found hstores hslot (not_not.mp htype) hholds hkey⟩

theorem onZset_zset {missing : Option (Slot × Value)}
    {act : Entry → Option (Entry × Value)} (htype : e.type = .zset) :
    onZset missing act (some (e, due)) =
      (act e).bind fun r => some (some (r.1, due), r.2) := by
  simp [onZset, htype]

theorem onZset_wrong {missing : Option (Slot × Value)}
    {act : Entry → Option (Entry × Value)} (htype : e.type ≠ .zset) :
    onZset missing act (some (e, due)) = some (some (e, due), wrongtype) := by
  simp [onZset, htype]

structure Edits (act : Entry → Option (Entry × Value)) (e : Entry)
    (reply : Value) (scores : Bytes → Option Int) (zset : ZSet) : Prop where
  eq : act e = some ({ e with zset := zset }, reply)
  inv : ∃ tree, zset.Inv tree
  scores : zset.scores = scores

theorem Edits.acts {act : Entry → Option (Entry × Value)} {reply : Value}
    {scores : Bytes → Option Int} {zset : ZSet}
    (hedits : Edits act e reply scores zset) (out : Bytes) (h : db.Inv)
    (hholds : db.Holds p e due) :
    Acts db e.key out
      ((act e).bind fun r => some (some (r.1, due), r.2))
      ((act e).bind fun r =>
        some (db.setEntry p (some r.1), out ++ r.2.encode)) := by
  rw [hedits.eq]
  exact .reply (setEntry_stores { e with zset := zset } h hholds rfl rfl
    hedits.inv).2

theorem zaddEntry_edits (name : Bytes) {score : Double}
    (hscore : score.isNaN = false) (hzset : ∃ tree, e.zset.Inv tree) :
    ∃ zset, Edits (zaddEntry name score) e
      (.int (if e.zset.scores name = none then 1 else 0))
      (Function.update e.zset.scores name (some score.key)) zset := by
  obtain ⟨tree, htree⟩ := hzset
  obtain ⟨zset, added, hinsert, hmaps, hadded⟩ :=
    zsetInsert_spec htree.maps name hscore
  refine ⟨zset, ?_, hmaps.inv, hmaps.eq_scores⟩
  simp only [zaddEntry, hinsert, Option.bind_eq_bind, Option.bind_some,
    hadded]

theorem zremEntry_edits (name : Bytes) (hzset : ∃ tree, e.zset.Inv tree) :
    ∃ zset, Edits (zremEntry name) e
      (.int (if (e.zset.scores name).isSome then 1 else 0))
      (Function.update e.zset.scores name none) zset := by
  obtain ⟨tree, htree⟩ := hzset
  obtain ⟨hmap, found, hlookup, hmaps, hperm, hfound⟩ :=
    zsetLookup_spec htree.maps name
  cases found with
  | none =>
      have hnone : e.zset.scores name = none := by
        apply htree.maps.none_iff.mpr
        intro p hp hname
        cases (hfound p).mpr ⟨hp, hname⟩
      refine ⟨{ e.zset with hmap := hmap }, ?_, hmaps.inv, ?_⟩
      · simp [zremEntry, hlookup, zremFound, hnone]
      · rw [hmaps.eq_scores, ← hnone, Function.update_eq_self]
  | some node =>
      obtain ⟨hnode, hname⟩ := (hfound node).mp rfl
      obtain ⟨zset, hdelete, hdeleted⟩ :=
        zsetDelete_spec hmaps (hperm.mem_iff.mpr hnode)
      have hsome : e.zset.scores name = some (e.zset.node node).score.key :=
        (htree.maps.pairs name _).mpr ⟨node, hnode, hname, rfl⟩
      refine ⟨zset, ?_, hdeleted.inv, ?_⟩
      · simp [zremEntry, hlookup, zremFound, hdelete, hsome]
      · rw [hdeleted.eq_scores]
        exact congrArg (Function.update e.zset.scores · none) hname

theorem zscoreEntry_edits (name : Bytes) (hzset : ∃ tree, e.zset.Inv tree) :
    ∃ zset reply, Edits (zscoreEntry name) e reply e.zset.scores zset ∧
      ((reply = .nil ∧ e.zset.scores name = none) ∨
        ∃ x : Double, reply = .dbl x ∧ e.zset.scores name = some x.key) := by
  obtain ⟨tree, htree⟩ := hzset
  obtain ⟨hmap, found, hlookup, hmaps, hperm, hfound⟩ :=
    zsetLookup_spec htree.maps name
  cases found with
  | none =>
      refine ⟨{ e.zset with hmap := hmap }, .nil,
        ⟨by simp [zscoreEntry, hlookup], hmaps.inv, hmaps.eq_scores⟩,
        .inl ⟨rfl, ?_⟩⟩
      apply htree.maps.none_iff.mpr
      intro p hp hname
      cases (hfound p).mpr ⟨hp, hname⟩
  | some node =>
      obtain ⟨hnode, hname⟩ := (hfound node).mp rfl
      exact ⟨{ e.zset with hmap := hmap }, .dbl (e.zset.node node).score,
        ⟨by simp [zscoreEntry, hlookup], hmaps.inv, hmaps.eq_scores⟩,
        .inr ⟨_, rfl, (htree.maps.pairs name _).mpr ⟨node, hnode, hname, rfl⟩⟩⟩

theorem zqueryLoop_eq (zset : ZSet) (limit : Int) (fuel : Nat)
    (znode : Option Ptr) (n : Int) (out : Bytes) :
    zqueryLoop zset limit fuel znode n out =
      (zqueryItems zset limit fuel znode n).map fun items =>
        (n + items.length, out ++ encodeAll items) := by
  induction fuel generalizing znode n out with
  | zero => cases znode <;> simp [zqueryLoop, zqueryItems, encodeAll]
  | succ fuel ih =>
      cases znode with
      | none => simp [zqueryLoop, zqueryItems, encodeAll]
      | some znode =>
          by_cases hmore : n < limit
          · simp only [zqueryLoop, zqueryItems, if_pos hmore,
              Option.bind_eq_bind, Option.map_bind]
            congr 1
            funext next
            cases hcount : checkedInt64 (n + 2) with
            | none => rfl
            | some m =>
                have hm : m = n + 2 := by
                  simp only [checkedInt64, Option.ite_none_right_eq_some,
                    Option.some.injEq] at hcount
                  exact hcount.2.symm
                simp only [Option.bind_some, ih, Function.comp_apply]
                cases zqueryItems zset limit fuel next m with
                | none => rfl
                | some items =>
                    simp [encodeAll, hm]
                    omega
          · simp [zqueryLoop, zqueryItems, hmore, encodeAll]

theorem zqueryEntry_same (score : Double) (name : Bytes) (offset limit : Int)
    (e : Entry) (r : Entry × Value)
    (h : zqueryEntry score name offset limit e = some r) : r.1 = e := by
  simp only [zqueryEntry] at h
  split at h
  · cases h
    rfl
  · simp only [Option.bind_eq_bind, Option.bind_eq_some_iff,
      Option.some.injEq] at h
    obtain ⟨_, _, _, _, _, _, rfl⟩ := h
    rfl

theorem zqueryReply_eq (score : Double) (name : Bytes) (offset : Int)
    {limit : Int} (hlimit : ¬ limit ≤ 0) (out : Bytes) (e : Entry) :
    zqueryReply e.zset score name offset limit out =
      (zqueryEntry score name offset limit e).map fun r =>
        out ++ r.2.encode := by
  simp only [zqueryReply, zqueryEntry, if_neg hlimit, Option.bind_eq_bind,
    Option.map_bind]
  congr 1
  funext znode
  simp only [Function.comp_apply, Option.map_bind]
  congr 1
  funext znode
  simp only [zqueryLoop_eq]
  cases zqueryItems e.zset limit (e.zset.alloc + 1) znode 0 with
  | none => rfl
  | some items =>
      have hend := outEndArr_eq out items
      simpa using hend

section Handlers

variable (verb key out : Bytes) (clock : Clock) (h : db.Inv)

include h

theorem doZrem_acts (name : Bytes) :
    Acts db key out
      ((Op.zrem name).act key clock.act (live clock.lookup (db.stored key)))
      (doZrem [verb, key, name] db out clock) := by
  obtain ⟨r, hexpect, hexpects⟩ := expectZset_spec h key out clock.lookup
  simp only [doZrem, hexpect, List.getElem?_cons_succ, List.getElem?_cons_zero,
    Option.bind_eq_bind, Option.bind_some]
  cases hexpects with
  | missing hstores hslot =>
      simp only [hslot, if_true, outInt_eq]
      exact .reply hstores
  | wrong hstores hslot htype =>
      simp only [hslot, Op.act, onZset_wrong htype]
      exact .reply hstores
  | found hstores hslot htype hholds hkey =>
      subst hkey
      obtain ⟨zset, hedits⟩ := zremEntry_edits name
        (hstores.inv.entries _ _ hholds.entry).2
      have hacts := hedits.acts out hstores.inv hholds
      simp only [hslot, Op.act, onZset_zset htype, hholds.entry,
        Option.bind_some]
      apply Acts.after hstores
      simpa [zremEntry, Option.bind_assoc] using hacts

theorem doZscore_acts (name : Bytes) :
    Acts db key out
      ((Op.zscore name).act key clock.act (live clock.lookup (db.stored key)))
      (doZscore [verb, key, name] db out clock) := by
  obtain ⟨r, hexpect, hexpects⟩ := expectZset_spec h key out clock.lookup
  simp only [doZscore, hexpect, List.getElem?_cons_succ,
    List.getElem?_cons_zero, Option.bind_eq_bind, Option.bind_some]
  cases hexpects with
  | missing hstores hslot =>
      simp only [hslot, if_true, outNil_eq]
      exact .reply hstores
  | wrong hstores hslot htype =>
      simp only [hslot, Op.act, onZset_wrong htype]
      exact .reply hstores
  | @found db' p e due hstores hslot htype hholds hkey =>
      subst hkey
      obtain ⟨zset, reply, hedits, _⟩ := zscoreEntry_edits name
        (hstores.inv.entries _ _ hholds.entry).2
      have hacts := hedits.acts out hstores.inv hholds
      simp only [hslot, Op.act, onZset_zset htype, hholds.entry,
        Option.bind_some]
      apply Acts.after hstores
      cases hfound : zsetLookup e.zset name with
      | none => simpa [zscoreEntry, hfound] using hacts
      | some r =>
          cases hnode : r.2 with
          | none => simpa [zscoreEntry, hfound, hnode] using hacts
          | some node => simpa [zscoreEntry, hfound, hnode] using hacts

theorem zaddInto_acts {p : Ptr} {e : Entry} {due : Option Nat} (name : Bytes)
    {score : Double} (hscore : score.isNaN = false) (hholds : db.Holds p e due) :
    Acts db e.key out
      ((zaddEntry name score e).bind fun r => some (some (r.1, due), r.2))
      (zaddInto db p name score out) := by
  obtain ⟨zset, hedits⟩ := zaddEntry_edits name hscore
    (h.entries p e hholds.entry).2
  have hacts := hedits.acts out h hholds
  simpa [zaddInto, zaddEntry, hholds.entry, Option.bind_assoc] using hacts

theorem doZadd_acts (arg name : Bytes) {score : Double}
    {strtod : Bytes → Double × Nat} (harg : str2dbl strtod arg = some score)
    (hscore : score.isNaN = false) :
    Acts db key out
      ((Op.zadd score name).act key clock.act
        (live clock.lookup (db.stored key)))
      (doZadd strtod [verb, key, arg, name] db out clock) := by
  obtain ⟨r, hexpect, hexpects⟩ := expectZset_spec h key out clock.lookup
  simp only [doZadd, harg, hexpect, List.getElem?_cons_succ,
    List.getElem?_cons_zero, Option.bind_eq_bind, Option.bind_some]
  cases hexpects with
  | missing hstores hslot =>
      obtain ⟨last, p, hcreate, hholds, hnew⟩ := createEntry_stores
        (e := zsetEntry key) hstores.inv hstores.stored_self rfl
        ZSet.Maps.empty.inv
      have hacts := zaddInto_acts out hnew.inv name hscore hholds
      rw [zsetEntry] at hcreate
      simp only [hslot, hcreate, Option.bind_some, Op.act, onZset]
      exact Acts.after (hstores.trans hnew) hacts
  | wrong hstores hslot htype =>
      simp only [hslot, Op.act, onZset_wrong htype]
      exact .reply hstores
  | found hstores hslot htype hholds hkey =>
      subst hkey
      have hacts := zaddInto_acts out hstores.inv name hscore hholds
      simp only [hslot, Op.act, onZset_zset htype]
      exact Acts.after hstores hacts

theorem doZquery_acts (arg name offsetArg limitArg : Bytes) {score : Double}
    {offset limit : Int} {strtod : Bytes → Double × Nat}
    (harg : str2dbl strtod arg = some score)
    (hoffset : str2int offsetArg = some offset)
    (hlimit : str2int limitArg = some limit) :
    Acts db key out
      ((Op.zquery score name offset limit).act key clock.act
        (live clock.lookup (db.stored key)))
      (doZquery strtod [verb, key, arg, name, offsetArg, limitArg] db out
        clock) := by
  obtain ⟨r, hexpect, hexpects⟩ := expectZset_spec h key out clock.lookup
  have hempty : outArr out 0 = out ++ (Value.arr []).encode := by
    simpa [encodeAll] using outArr_eq out []
  simp only [doZquery, harg, hoffset, hlimit, hexpect,
    List.getElem?_cons_succ, List.getElem?_cons_zero, Option.bind_eq_bind,
    Option.bind_some]
  cases hexpects with
  | missing hstores hslot =>
      simp only [hslot, if_true, hempty]
      exact .reply hstores
  | wrong hstores hslot htype =>
      simp only [hslot, Op.act, onZset_wrong htype]
      exact .reply hstores
  | @found _ _ e _ hstores hslot htype hholds hkey =>
      simp only [hslot, Op.act, onZset_zset htype]
      split
      next hstop =>
        simp only [zqueryEntry, if_pos hstop, hempty]
        exact .reply hstores
      next hgo =>
        simp only [hholds.entry, Option.bind_some, zqueryReply_eq score name
          offset hgo]
        have hsame := zqueryEntry_same score name offset limit e
        cases hquery : zqueryEntry score name offset limit e with
        | none => exact .crash
        | some r =>
            rw [← hsame r hquery] at hstores
            exact .reply hstores

end Handlers

end MiniRedis.Server
