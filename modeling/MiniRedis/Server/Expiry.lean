import MiniRedis.Server.DatabaseRuns

namespace MiniRedis.Server

open MiniRedis.Data MiniRedis.Ds MiniRedis.Store MiniRedis.Protocol

/-! Which replies depend on keys past their deadline. -/

variable {strtod : Bytes → Double × Nat} {db other : Database} {now : UInt64}
  {cmd : List Bytes}

def replyAt (strtod : Bytes → Double × Nat) (cmd : List Bytes) (db : Database)
    (now : UInt64) : Option Bytes :=
  (doRequest strtod cmd db [] ⟨now, now⟩).map Prod.snd

/-- The lookup that `GET`, `TTL` and `DEL` share finds the key. -/
def Finds (db : Database) (now : UInt64) (key : Bytes) : Prop :=
  ∃ db' p, lookupEntry db key now = some (db', some p)

def emittedKeys (db : Database) : List Bytes := db.map.nodes.map db.key

structure ListsFound (strtod : Bytes → Double × Nat) (cmd : List Bytes)
    (db : Database) (now : UInt64) : Prop where
  reply : replyAt strtod cmd db now =
    some (Value.arr ((emittedKeys db).map .str)).encode
  once : (emittedKeys db).Nodup
  found : ∀ key, key ∈ emittedKeys db ↔ Finds db now key

/-- A command reveals nothing of the overdue keys: any other command than `KEYS`
answers the same on every database with the same live keys. -/
def Conceals (strtod : Bytes → Double × Nat) (cmd : List Bytes)
    (db : Database) (now : UInt64) : Prop :=
  match Request.ofCmd strtod cmd with
  | .keys => ListsFound strtod cmd db now
  | _ => ∀ other, DatabaseReachable strtod other →
      (∀ key, live now (other.stored key) = live now (db.stored key)) →
      replyAt strtod cmd other now = replyAt strtod cmd db now

theorem Acts.map_snd {key out : Bytes} {action : Option (Slot × Value)}
    {result : Option (Database × Bytes)} (h : Acts db key out action result) :
    result.map Prod.snd = action.map fun r => out ++ r.2.encode := by
  cases h with
  | crash => rfl
  | reply => rfl

/-- The reply of an operation is a function of the live slot of its key. -/
theorem replyAt_on (h : db.Inv) {key : Bytes} {op : Op}
    (hcmd : Request.ofCmd strtod cmd = .on key op) :
    replyAt strtod cmd db now =
      (op.act key now (live now (db.stored key))).map fun r =>
        r.2.encode := by
  have hanswers := doRequest_answers h strtod cmd [] ⟨now, now⟩
  rw [hcmd] at hanswers
  rw [replyAt]
  cases hanswers with
  | on _ hacts => exact hacts.map_snd

theorem replyAt_reject (h : db.Inv) {code : Nat} {msg : Bytes}
    (hcmd : Request.ofCmd strtod cmd = .reject code msg) :
    replyAt strtod cmd db now = some (Value.err code msg).encode := by
  have hanswers := doRequest_answers h strtod cmd [] ⟨now, now⟩
  rw [hcmd] at hanswers
  rw [replyAt]
  generalize doRequest strtod cmd db [] ⟨now, now⟩ = result at hanswers ⊢
  cases hanswers with
  | reject => rfl

theorem replyAt_keys (h : db.Inv) (hcmd : Request.ofCmd strtod cmd = .keys) :
    replyAt strtod cmd db now =
      some (Value.arr ((emittedKeys db).map .str)).encode := by
  have hanswers := doRequest_answers h strtod cmd [] ⟨now, now⟩
  rw [hcmd] at hanswers
  rw [replyAt, emittedKeys, List.map_map]
  generalize doRequest strtod cmd db [] ⟨now, now⟩ = result at hanswers ⊢
  cases hanswers with
  | keys => rfl

theorem finds_iff (h : db.Inv) (key : Bytes) :
    Finds db now key ↔ live now (db.stored key) ≠ none := by
  obtain ⟨db', ent, hlookup, hlooked⟩ := lookupEntry_spec h key now
  simp only [Finds, hlookup]
  cases hlooked with
  | absent _ hslot => simp [hslot]
  | present _ _ _ hslot => simp [hslot]

theorem mem_emittedKeys (h : db.Inv) (key : Bytes) :
    key ∈ emittedKeys db ↔ db.stored key ≠ none := by
  rw [Ne, h.stored_eq_none, emittedKeys, List.mem_map]
  simp

def NoneOverdue (db : Database) (now : UInt64) : Prop :=
  ∀ key e due, db.stored key = some (e, due) → overdue now due = false

theorem noneOverdue_iff (db : Database) (now : UInt64) :
    NoneOverdue db now ↔
      ∀ key, db.stored key ≠ none ↔ live now (db.stored key) ≠ none := by
  constructor
  · intro hnone key
    cases hstored : db.stored key with
    | none => simp [live]
    | some content =>
        simp [live, hnone key content.1 content.2 hstored]
  · intro hiff key e due hstored
    have hlive := (hiff key).mp (by simp [hstored])
    simpa [hstored, live] using hlive

/-- Every command conceals the overdue keys but `KEYS`, which conceals them
exactly when there are none. -/
theorem conceals_iff (hreach : DatabaseReachable strtod db)
    (cmd : List Bytes) (now : UInt64) :
    Conceals strtod cmd db now ↔
      Request.ofCmd strtod cmd ≠ .keys ∨ NoneOverdue db now := by
  have h := hreach.inv
  unfold Conceals
  cases hcmd : Request.ofCmd strtod cmd with
  | reject code msg =>
      refine iff_of_true ?_ (.inl (by simp))
      intro other hother _
      rw [replyAt_reject hother.inv hcmd, replyAt_reject h hcmd]
  | on key op =>
      refine iff_of_true ?_ (.inl (by simp))
      intro other hother hlive
      rw [replyAt_on hother.inv hcmd, replyAt_on h hcmd, hlive]
  | keys =>
      have honce : (emittedKeys db).Nodup := h.nodup.map_on h.index.distinct
      simp only [ne_eq, not_true_eq_false, false_or, noneOverdue_iff]
      constructor
      · intro hlists key
        have hfound := hlists.found key
        rwa [mem_emittedKeys h, finds_iff h] at hfound
      · intro hiff
        refine ⟨replyAt_keys h hcmd, honce, ?_⟩
        intro key
        rw [mem_emittedKeys h, finds_iff h]
        exact hiff key

theorem conceals_iff_timed :
    Conceals (fun _ => ({}, 0)) [ascii "KEYS"] timedKey 4 := by
  refine (conceals_iff timedKey_reachable [ascii "KEYS"] 4).mpr (.inr ?_)
  intro key e due hstored
  obtain ⟨p, hholds, _⟩ := timedKey_reachable.inv.stored_eq_some.mp hstored
  have hp := hholds.linked
  rw [timedKey_nodes, List.mem_singleton] at hp
  rw [← hholds.timer, hp]
  decide +kernel

/-- A key set to expire at time 5 is listed at time 10, where `GET` does not
find it. -/
theorem keys_lists_overdue :
    DatabaseReachable (fun _ => ({}, 0)) timedKey ∧
      replyAt (fun _ => ({}, 0)) [ascii "KEYS"] timedKey 10 =
        some (Value.arr [.str (ascii "a")]).encode ∧
      replyAt (fun _ => ({}, 0)) [ascii "GET", ascii "a"] timedKey 10 =
        some Value.nil.encode ∧
      ¬ Conceals (fun _ => ({}, 0)) [ascii "KEYS"] timedKey 10 := by
  refine ⟨timedKey_reachable, by decide +kernel, by decide +kernel, ?_⟩
  intro hconceals
  have hlists : ListsFound (fun _ => ({}, 0)) [ascii "KEYS"] timedKey 10 :=
    hconceals
  have hmem : ascii "a" ∈ emittedKeys timedKey := by decide +kernel
  obtain ⟨db', p, hlookup⟩ := (hlists.found (ascii "a")).mp hmem
  have hmiss : (lookupEntry timedKey (ascii "a") 10).map Prod.snd =
      some none := by decide +kernel
  rw [hlookup] at hmiss
  cases hmiss

end MiniRedis.Server
