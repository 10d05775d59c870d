import MiniRedis.Server.History
import MiniRedis.Server.RangeReplies
import MiniRedis.Server.Teardown

namespace MiniRedis.EventLoop

open MiniRedis.Data MiniRedis.Ds MiniRedis.Store MiniRedis.Protocol
open MiniRedis.Server

/-! Tearing large sets down on the workers cannot be told from freeing them in
place. -/

variable {strtod : Bytes → Double × Nat} {db plain db' : Database} {s : Server}
  {trace : List Event}

/-- The workers' steps are not taken by the loop. -/
def Event.onLoop : Event → Bool
  | .taken | .freed _ => false
  | _ => true

structure Beside (db plain : Database) : Prop where
  twin : Twin db plain
  inv : db.Inv
  plain : plain.Inv

namespace Beside

theorem stored (h : Beside db plain) : plain.stored = db.stored := by
  funext key
  refine Option.ext ?_
  rintro ⟨e, due⟩
  rw [h.plain.stored_eq_some, h.inv.stored_eq_some]
  simp only [h.twin.holds_iff]

theorem ent_of_drained (h : Beside db plain) (hdrained : db.pooled = []) :
    plain.ent = db.ent := by
  funext p
  by_cases hp : p ∈ db.map.nodes
  · exact h.twin.ent p hp
  · have hfree : ¬ (db.ent p).isSome := by
      rw [← h.inv.owned p, hdrained, List.append_nil]
      exact hp
    have hfree' : ¬ (plain.ent p).isSome := by
      rw [← h.plain.owned p, Database.pooled, h.twin.pool, h.twin.map,
        List.append_nil]
      exact hp
    rw [Option.not_isSome_iff_eq_none.mp hfree,
      Option.not_isSome_iff_eq_none.mp hfree']

/-- A worker touches entries that are linked nowhere. -/
theorem take (h : Beside db plain) (hresult : workerTake db = some db') :
    Beside db' plain := by
  refine ⟨?_, (workerTake_keeps h.inv hresult).1, h.plain⟩
  unfold workerTake at hresult
  split at hresult
  next =>
    cases hresult
    exact ⟨h.twin.map, h.twin.ttl, h.twin.alloc, h.twin.pool, h.twin.ent⟩
  next =>
    cases hresult
    exact h.twin

theorem finish {ent : Ptr} (h : Beside db plain)
    (hresult : workerFinish db ent = some db') : Beside db' plain := by
  refine ⟨?_, (workerFinish_keeps h.inv hresult).1, h.plain⟩
  unfold workerFinish at hresult
  split at hresult
  next pool hpool =>
    split at hresult
    next hmem =>
      obtain ⟨-, rfl⟩ := entryDelSync_eq hresult
      refine ⟨h.twin.map, h.twin.ttl, h.twin.alloc, h.twin.pool, ?_⟩
      intro q hq
      have hother : q ≠ ent := by
        rintro rfl
        refine h.inv.not_pooled hq ?_
        rw [Database.pooled, hpool]
        exact List.mem_append_right _ hmem
      rw [Database.setEntry_other _ hother]
      exact h.twin.ent q hq
    next =>
      cases hresult
      exact h.twin
  next =>
    cases hresult
    exact h.twin

theorem respond {body resp : Bytes} {clock : Clock} (h : Beside db plain)
    (hresult : Server.respond strtod body db clock = some (db', resp)) :
    ∃ plain', Server.respond strtod body plain clock = some (plain', resp) ∧
      Beside db' plain' := by
  unfold Server.respond at hresult ⊢
  obtain ⟨⟨status, cmd⟩, hparse, hresult⟩ := Option.bind_eq_some_iff.mp hresult
  rw [hparse]
  dsimp only [Option.bind_eq_bind, Option.bind_some] at hresult ⊢
  split at hresult
  next hbad =>
    cases hresult
    exact ⟨plain, if_pos hbad, h⟩
  next hgood =>
    rw [if_neg hgood]
    obtain ⟨plain', hplain, htwin⟩ := (doRequest_twin h.twin h.inv).of_some hresult
    exact ⟨plain', hplain, htwin,
      DatabaseStep.inv (.request cmd [] clock hresult) h.inv,
      DatabaseStep.inv (.request cmd [] clock hplain) h.plain⟩

theorem exchange {exchange : Exchange} (h : Beside db plain)
    (hresult : replayExchange strtod db exchange = some db') :
    ∃ plain', replayExchange strtod plain exchange = some plain' ∧
      Beside db' plain' := by
  obtain ⟨plain', hrespond, hbeside⟩ := h.respond (replayExchange_eq_some.mp hresult)
  exact ⟨plain', replayExchange_eq_some.mpr hrespond, hbeside⟩

theorem exchanges {exchanges : List Exchange} (h : Beside db plain)
    (hresult : exchanges.foldlM (replayExchange strtod) db = some db') :
    ∃ plain', exchanges.foldlM (replayExchange strtod) plain = some plain' ∧
      Beside db' plain' := by
  induction exchanges generalizing db plain with
  | nil =>
      cases hresult
      exact ⟨plain, rfl, h⟩
  | cons exchange exchanges ih =>
      obtain ⟨between, hfirst, hresult⟩ := Option.bind_eq_some_iff.mp hresult
      obtain ⟨mirrored, hmirrored, hbetween⟩ := h.exchange hfirst
      obtain ⟨plain', hrest, hlast⟩ := ih hbetween hresult
      refine ⟨plain', ?_, hlast⟩
      rw [List.foldlM_cons, hmirrored]
      exact hrest

theorem reap {now : UInt64} (h : Beside db plain)
    (hresult : reapKeys now db = some db') :
    ∃ plain', reapKeys now plain = some plain' ∧ Beside db' plain' := by
  obtain ⟨_, plain', hreap, hreap', htwin⟩ :=
    reapLoop_twin now kMaxWorks h.twin h.inv
  rw [reapKeys, hreap] at hresult
  cases hresult
  exact ⟨plain', hreap', htwin, (reapLoop_keeps h.inv hreap).1,
    (reapLoop_keeps h.plain hreap').1⟩

theorem event {event : Event} (h : Beside db plain)
    (hresult : replay strtod db event = some db') :
    ∃ plain', (if event.onLoop then replay strtod plain event else some plain) =
        some plain' ∧ Beside db' plain' := by
  cases event with
  | accepted fd =>
      cases hresult
      exact ⟨plain, rfl, h⟩
  | handled fd traffic => exact h.exchanges hresult
  | reaped now => exact h.reap hresult
  | taken => exact ⟨plain, rfl, h.take hresult⟩
  | freed ent => exact ⟨plain, rfl, h.finish hresult⟩

theorem run (h : Beside db plain)
    (hresult : trace.foldlM (replay strtod) db = some db') :
    ∃ plain', (trace.filter Event.onLoop).foldlM (replay strtod) plain =
        some plain' ∧ Beside db' plain' := by
  induction trace generalizing db plain with
  | nil =>
      cases hresult
      exact ⟨plain, rfl, h⟩
  | cons event trace ih =>
      obtain ⟨between, hfirst, hresult⟩ := Option.bind_eq_some_iff.mp hresult
      obtain ⟨mirrored, hmirrored, hbetween⟩ := h.event hfirst
      obtain ⟨plain', hrest, hlast⟩ := ih hbetween hresult
      refine ⟨plain', ?_, hlast⟩
      cases hloop : event.onLoop with
      | true =>
          rw [hloop, if_pos rfl] at hmirrored
          rw [List.filter_cons_of_pos hloop, List.foldlM_cons, hmirrored]
          exact hrest
      | false =>
          rw [hloop] at hmirrored
          cases hmirrored
          rw [List.filter_cons_of_neg (by simp [hloop])]
          exact hrest

end Beside

theorem ServerRun.beside (hrun : ServerRun strtod s trace) :
    ∃ plain, (trace.filter Event.onLoop).foldlM (replay strtod) { pool := none } =
        some plain ∧
      Beside s.db plain := by
  have hstart : Beside { pool := some {} } { pool := none } :=
    ⟨⟨rfl, rfl, rfl, rfl, fun _ _ => rfl⟩, .empty _ (.inr rfl), .empty _ (.inl rfl)⟩
  exact hstart.run hrun.served.replays

theorem ServerRun.inv (hrun : ServerRun strtod s trace) : s.db.Inv := by
  obtain ⟨_, -, hbeside⟩ := hrun.beside
  exact hbeside.inv

/-! A run that hands a set to the pool. -/

structure Calm (db : Database) : Prop where
  pool : db.pool = some {}
  timers : ∀ p, db.ttl.index.idx p = none

namespace Calm

theorem lookup {key : Bytes} {now : UInt64} {ent : Option Ptr} (h : Calm db)
    (hlookup : lookupEntry db key now = some (db', ent)) : Calm db' := by
  obtain ⟨⟨map, found⟩, -, hlookup⟩ := Option.bind_eq_some_iff.mp hlookup
  cases found with
  | none =>
      cases hlookup
      exact ⟨h.pool, h.timers⟩
  | some p =>
      simp only [h.timers p] at hlookup
      cases hlookup
      exact ⟨h.pool, h.timers⟩

theorem expect {key out : Bytes} {now : UInt64} {expected : Expected} (h : Calm db)
    (hexpect : expectZset db key out now = some expected) : Calm expected.db := by
  obtain ⟨⟨looked, ent⟩, hlookup, hexpect⟩ := Option.bind_eq_some_iff.mp hexpect
  have hlooked := h.lookup hlookup
  cases ent with
  | none =>
      cases hexpect
      exact hlooked
  | some p =>
      obtain ⟨e, -, hexpect⟩ := Option.bind_eq_some_iff.mp hexpect
      split at hexpect
      · cases hexpect
        exact hlooked
      · cases hexpect
        exact hlooked

theorem zaddInto {p : Ptr} {name out out' : Bytes} {score : Double} (h : Calm db)
    (hinto : zaddInto db p name score out = some (db', out')) : Calm db' := by
  obtain ⟨e, -, hinto⟩ := Option.bind_eq_some_iff.mp hinto
  obtain ⟨_, -, hinto⟩ := Option.bind_eq_some_iff.mp hinto
  cases hinto
  exact ⟨h.pool, h.timers⟩

theorem create {e : Entry} {p : Ptr} (h : Calm db)
    (hcreate : createEntry db e = some (db', p)) : Calm db' := by
  obtain ⟨map, -, hcreate⟩ := Option.bind_eq_some_iff.mp hcreate
  cases hcreate
  refine ⟨h.pool, fun q => ?_⟩
  exact (ite_eq_left_iff.mpr fun _ => h.timers q)

theorem zadd {out out' : Bytes} {clock : Clock} {cmd : List Bytes} (h : Calm db)
    (hzadd : doZadd strtod cmd db out clock = some (db', out')) : Calm db' := by
  obtain ⟨arg, -, hzadd⟩ := Option.bind_eq_some_iff.mp hzadd
  split at hzadd
  · cases hzadd
    exact h
  · obtain ⟨key, -, hzadd⟩ := Option.bind_eq_some_iff.mp hzadd
    obtain ⟨name, -, hzadd⟩ := Option.bind_eq_some_iff.mp hzadd
    obtain ⟨⟨found, text, ent, missing⟩, hexpect, hzadd⟩ :=
      Option.bind_eq_some_iff.mp hzadd
    have hfound := h.expect hexpect
    cases ent with
    | some p => exact hfound.zaddInto hzadd
    | none =>
        simp only at hzadd
        split at hzadd
        · cases hzadd
          exact hfound
        · obtain ⟨⟨created, p⟩, hcreate, hzadd⟩ := Option.bind_eq_some_iff.mp hzadd
          exact (hfound.create hcreate).zaddInto hzadd

/-- A set of more than `k_large_container_size` pairs goes to the pool. -/
theorem del {key : Bytes} {e : Entry} (h : Calm db) (hinv : db.Inv)
    (hstored : db.stored key = some (e, none))
    (hlarge : kLargeContainerSize < e.setSize) (verb out : Bytes) (clock : Clock) :
    ∃ db' p, doDel [verb, key] db out clock = some (db', outInt out 1) ∧
      db'.pool = some ⟨[p], []⟩ ∧ db'.ent p = some e := by
  obtain ⟨looked, ent, hlookup, hlooked⟩ := lookupEntry_spec hinv key clock.lookup
  have hcalm := h.lookup hlookup
  cases hlooked with
  | absent _ hslot =>
      rw [hstored, live_none_due] at hslot
      cases hslot
  | @present p found due hstores hholds hkey hslot =>
      rw [hstored, live_none_due] at hslot
      cases hslot
      obtain ⟨last, hdrop, -⟩ := dropEntry_stores hstores.inv hholds
      refine ⟨last, p, by simp [doDel, hlookup, hdrop], ?_⟩
      simp only [dropEntry, entryDel, Option.bind_eq_bind,
        Option.bind_eq_some_iff] at hdrop
      obtain ⟨_, hentry, _, -, timed, hset, e', hentry', hdel⟩ := hdrop
      obtain ⟨ttl, rfl⟩ := entrySetTtl_eq hset
      have hsame : looked.ent p = some e' := hentry'
      rw [hholds.entry] at hsame
      cases hsame
      simp only [hcalm.pool, if_pos hlarge, Option.some.injEq] at hdel
      subst hdel
      exact ⟨rfl, hholds.entry⟩

end Calm

def addMember (n : Nat) : Bytes :=
  encodeReq [ascii "ZADD", ascii "z", ascii "0", memberName n]

theorem length_addMember (n : Nat) : (addMember n).length = 34 := by
  rw [addMember, length_encodeReq]
  simp only [List.map_cons, List.map_nil, memberName, length_leBytes]
  rfl

theorem respond_addMember (n : Nat) :
    respond strtodZero (addMember n) db ⟨0, 0⟩ = doRequest strtodZero
      [ascii "ZADD", ascii "z", ascii "0", memberName n] db [] ⟨0, 0⟩ := by
  have hencodable : Encodable [ascii "ZADD", ascii "z", ascii "0", memberName n] := by
    refine ⟨by simp [kMaxArgs], ?_⟩
    intro arg harg
    simp only [List.mem_cons, List.not_mem_nil, or_false] at harg
    obtain rfl | rfl | rfl | rfl := harg
    · decide
    · decide
    · decide
    · rw [memberName, length_leBytes]
      omega
  exact respond_encodeReq hencodable

theorem exists_member_added {n : Nat} (hrun : ServerRun strtodZero s trace)
    (hlisten : Listening s 0) (hcalm : Calm s.db)
    (hslot : (s.db.stored (ascii "z") = none ∧ n = 0) ∨
      HoldsScores s.db (zeroScores n)) :
    ∃ s trace, ServerRun strtodZero s trace ∧ Listening s 0 ∧ Calm s.db ∧
      HoldsScores s.db (zeroScores (n + 1)) := by
  obtain ⟨db, reply, hresult, hholds⟩ := zadd_zeroScores hrun.inv hslot
  have hbody : (addMember n).length ≤ maxMsg := by
    rw [length_addMember]
    decide
  have hrespond : respond strtodZero (addMember n) s.db ⟨0, 0⟩ = some (db, reply) :=
    (respond_addMember n).trans hresult
  obtain ⟨s', hrun', rfl, hkept⟩ :=
    hrun.request hlisten ⟨addMember n, ⟨0, 0⟩, reply⟩ hbody hrespond
  exact ⟨s', _, hrun', hkept 0 hlisten, hcalm.zadd hresult, hholds⟩

theorem exists_members_added (n : Nat) : ∃ s trace, ServerRun strtodZero s trace ∧
    Listening s 0 ∧ Calm s.db ∧ HoldsScores s.db (zeroScores (n + 1)) := by
  induction n with
  | zero =>
      have hrun : ServerRun strtodZero oneClient [.accepted 0] :=
        (ServerRun.start 30000).accept rfl 0
      exact exists_member_added hrun ⟨_, rfl, rfl, rfl⟩ ⟨rfl, fun _ => rfl⟩
        (.inl ⟨rfl, rfl⟩)
  | succ n ih =>
      obtain ⟨s, trace, hrun, hlisten, hcalm, hholds⟩ := ih
      exact exists_member_added hrun hlisten hcalm (.inr hholds)

theorem exists_set_deleted : ∃ s trace p e, ServerRun strtodZero s trace ∧
    s.db.pool = some ⟨[p], []⟩ ∧ s.db.ent p = some e ∧ e.setSize = 1001 := by
  obtain ⟨s, trace, hrun, hlisten, hcalm, e, hstored, htype, hscores⟩ :=
    exists_members_added 1000
  obtain ⟨tree, htree⟩ := exists_zsetInv hrun.inv hstored
  have hsize : e.setSize = 1001 := by
    rw [Entry.setSize, if_pos htype, htree.index.inv.hmSize_eq]
    exact (zeroScores_members htree (by decide) hscores).1
  obtain ⟨db, p, hdel, hpool, hentry⟩ := hcalm.del hrun.inv hstored
    (by rw [hsize]; decide) (ascii "DEL") [] ⟨0, 0⟩
  have hrespond : respond strtodZero (encodeReq [ascii "DEL", ascii "z"]) s.db ⟨0, 0⟩ =
      some (db, outInt [] 1) :=
    (respond_encodeReq ⟨by decide, by decide⟩).trans hdel
  obtain ⟨s', hrun', rfl, -⟩ := hrun.request hlisten
    ⟨encodeReq [ascii "DEL", ascii "z"], ⟨0, 0⟩, outInt [] 1⟩ (by decide) hrespond
  exact ⟨s', _, p, e, hrun', hpool, hentry, hsize⟩

/-- The requests and the reaping passes of a run, repeated on a database without
a pool, get the same replies and leave the same keys under the same timers. With
no task outstanding the entries in memory are the same, too. -/
theorem teardown_unobservable (hrun : ServerRun strtod s trace) :
    ∃ plain, (trace.filter Event.onLoop).foldlM (replay strtod) { pool := none } =
        some plain ∧
      plain.map = s.db.map ∧ plain.ttl = s.db.ttl ∧ plain.stored = s.db.stored ∧
      (s.db.pooled = [] → plain.ent = s.db.ent) := by
  obtain ⟨plain, hplain, hbeside⟩ := hrun.beside
  exact ⟨plain, hplain, hbeside.twin.map, hbeside.twin.ttl, hbeside.stored,
    hbeside.ent_of_drained⟩

theorem teardown_unobservable_large : ∃ s trace p e, ServerRun strtodZero s trace ∧
      s.db.pool = some ⟨[p], []⟩ ∧ s.db.ent p = some e ∧ e.setSize = 1001 ∧
      ∃ s' plain, ServerRun strtodZero s' (trace ++ [.taken, .freed p]) ∧
        s'.db.ent p = none ∧
        (trace.filter Event.onLoop).foldlM (replay strtodZero) { pool := none } =
          some plain ∧ plain.map = s'.db.map ∧ plain.ent = s'.db.ent := by
  obtain ⟨s, trace, p, e, hrun, hpool, hentry, hsize⟩ := exists_set_deleted
  have htake : workerTake s.db = some { s.db with pool := some ⟨[], [p]⟩ } := by
    rw [workerTake, hpool]
  obtain ⟨cleared, hclear⟩ := Entry.clear_spec (hrun.inv.entries p e hentry).2
  have hfinish : workerFinish { s.db with pool := some ⟨[], [p]⟩ } p =
      some (Database.setEntry { s.db with pool := some {} } p none) := by
    simp [workerFinish, entryDelSync, hentry, hclear]
  have hrun' := (hrun.take htake).finish hfinish
  rw [List.append_assoc] at hrun'
  obtain ⟨plain, hplain, hmap, -, -, hent⟩ := teardown_unobservable hrun'
  rw [List.filter_append] at hplain
  exact ⟨s, trace, p, e, hrun, hpool, hentry, hsize, _, plain, hrun',
    Database.setEntry_self .., by simpa [Event.onLoop] using hplain, hmap, hent rfl⟩

end MiniRedis.EventLoop
