import MiniRedis.Server.DatabaseRuns
import MiniRedis.Server.RangeQuery

namespace MiniRedis.Server

open MiniRedis.Data MiniRedis.Ds MiniRedis.Store MiniRedis.Protocol

/-! Every reply is one well-formed value. -/

variable {strtod : Bytes → Double × Nat} {db : Database} {e : Entry}

structure SmallEntry (e : Entry) : Prop where
  str : e.str.length < 2 ^ 32
  members : e.zset.hmap.nodes.length < 2 ^ 31
  names : ∀ p ∈ e.zset.hmap.nodes, (e.zset.node p).name.length < 2 ^ 32

structure SmallDatabase (db : Database) : Prop where
  keys : db.map.nodes.length < 2 ^ 32
  names : ∀ p ∈ db.map.nodes, (db.key p).length < 2 ^ 32
  entries : ∀ p ∈ db.map.nodes, ∀ e, db.ent p = some e → SmallEntry e

theorem wrongtype_wellFormed : wrongtype.WellFormed :=
  .err (by decide) (by decide)

theorem wellFormed_flag (c : Prop) [Decidable c] :
    (Value.int (if c then 1 else 0)).WellFormed := by
  split
  · exact .int (by decide) (by decide)
  · exact .int (by decide) (by decide)

theorem segment_wellFormed {zset : ZSet} {nodes : List Ptr} {start : Nat}
    {count : Int} (hnodes : nodes.length < 2 ^ 31)
    (hnames : ∀ p ∈ nodes, (zset.node p).name.length < 2 ^ 32) :
    (Value.arr (segment zset nodes start count)).WellFormed := by
  have hsub : ∀ p ∈ (nodes.drop start).take ((count + 1) / 2).toNat,
      p ∈ nodes := fun p hp => List.mem_of_mem_drop (List.mem_of_mem_take hp)
  refine .arr ?_ ?_
  · have hlength : (segment zset nodes start count).length =
        ((nodes.drop start).take ((count + 1) / 2).toNat).length * 2 := by
      simp [segment, List.length_flatMap, ZSet.pair]
    rw [hlength, List.length_take, List.length_drop]
    omega
  · intro value hvalue
    obtain ⟨p, hp, hpair⟩ := List.mem_flatMap.mp hvalue
    simp only [ZSet.pair, List.mem_cons, List.not_mem_nil, or_false] at hpair
    rcases hpair with rfl | rfl
    · exact .str (hnames p (hsub p hp))
    · exact .dbl

theorem rangeItems_wellFormed {zset : ZSet} {nodes : List Ptr} (score : Double)
    (name : Bytes) (offset limit : Int) (hnodes : nodes.length < 2 ^ 31)
    (hnames : ∀ p ∈ nodes, (zset.node p).name.length < 2 ^ 32) :
    (Value.arr (rangeItems zset nodes score name offset limit)).WellFormed := by
  simp only [rangeItems]
  split
  · exact segment_wellFormed hnodes hnames
  · exact .arr (by decide) (by simp)

theorem zqueryEntry_wellFormed (hzset : ∃ tree, e.zset.Inv tree)
    (hsmall : SmallEntry e) {score : Double} (hscore : score.isNaN = false)
    (name : Bytes) (offset limit : Int) :
    ∃ reply, zqueryEntry score name offset limit e = some (e, reply) ∧
      reply.WellFormed := by
  obtain ⟨tree, htree⟩ := hzset
  have hlength : (inorder tree).length < 2 ^ 31 := by
    rw [← htree.same.length_eq]
    exact hsmall.members
  have hsize : tree.numNodes < 2 ^ 32 := by
    rw [← length_inorder]
    omega
  refine ⟨_, zqueryEntry_eq htree hsize hscore name offset limit,
    rangeItems_wellFormed score name offset limit hlength ?_⟩
  intro p hp
  exact hsmall.names p (htree.same.mem_iff.mpr hp)

def SmallSlot (slot : Slot) : Prop :=
  ∀ e due, slot = some (e, due) → (∃ tree, e.zset.Inv tree) ∧ SmallEntry e

theorem onZset_wellFormed {slot : Slot} {missing : Option (Slot × Value)}
    {act : Entry → Option (Entry × Value)} (hslot : SmallSlot slot)
    (hmissing : ∃ after reply, missing = some (after, reply) ∧
      reply.WellFormed)
    (hact : ∀ e, (∃ tree, e.zset.Inv tree) → SmallEntry e →
      ∃ after reply, act e = some (after, reply) ∧ reply.WellFormed) :
    ∃ after reply, onZset missing act slot = some (after, reply) ∧
      reply.WellFormed := by
  cases slot with
  | none => exact hmissing
  | some content =>
      obtain ⟨e, due⟩ := content
      by_cases htype : e.type = .zset
      · obtain ⟨hzset, hsmall⟩ := hslot e due rfl
        obtain ⟨after, reply, heq, hreply⟩ := hact e hzset hsmall
        exact ⟨some (after, due), reply, by rw [onZset_zset htype, heq]; rfl,
          hreply⟩
      · exact ⟨_, _, onZset_wrong htype, wrongtype_wellFormed⟩

theorem Op.act_wellFormed {op : Op} (hop : op.Valid) (key : Bytes)
    (now : UInt64) {slot : Slot} (hslot : SmallSlot slot) :
    ∃ after reply, op.act key now slot = some (after, reply) ∧
      reply.WellFormed := by
  cases op with
  | get =>
      rcases slot with _ | ⟨e, due⟩
      · exact ⟨_, _, rfl, .nil⟩
      · refine ⟨_, _, rfl, ?_⟩
        split
        · exact wrongtype_wellFormed
        · exact .str (hslot e due rfl).2.str
  | set value =>
      rcases slot with _ | ⟨e, due⟩
      · exact ⟨_, _, rfl, .nil⟩
      · simp only [Op.act]
        split
        · exact ⟨_, _, rfl, wrongtype_wellFormed⟩
        · exact ⟨_, _, rfl, .nil⟩
  | del =>
      rcases slot with _ | content
      · exact ⟨_, _, rfl, .int (by decide) (by decide)⟩
      · exact ⟨_, _, rfl, .int (by decide) (by decide)⟩
  | expire unitMs n =>
      rcases slot with _ | ⟨e, due⟩
      · exact ⟨_, _, rfl, .int (by decide) (by decide)⟩
      · simp only [Op.act]
        split
        · exact ⟨_, _, rfl, .int (by decide) (by decide)⟩
        · exact ⟨_, _, rfl, .int (by decide) (by decide)⟩
  | ttl inMs =>
      rcases slot with _ | ⟨e, _ | deadline⟩
      · exact ⟨_, _, rfl, .int (by decide) (by decide)⟩
      · exact ⟨_, _, rfl, .int (by decide) (by decide)⟩
      · exact ⟨_, _, rfl, .int (castInt64_range _).1 (castInt64_range _).2⟩
  | persist =>
      rcases slot with _ | ⟨e, _ | deadline⟩
      · exact ⟨_, _, rfl, .int (by decide) (by decide)⟩
      · exact ⟨_, _, rfl, .int (by decide) (by decide)⟩
      · exact ⟨_, _, rfl, .int (by decide) (by decide)⟩
  | zadd score name =>
      apply onZset_wellFormed hslot
      · obtain ⟨zset, hedits⟩ :=
          zaddEntry_edits (e := zsetEntry key) name hop ZSet.Maps.empty.inv
        exact ⟨_, _, by rw [hedits.eq]; rfl, wellFormed_flag _⟩
      · intro e hzset _
        obtain ⟨zset, hedits⟩ := zaddEntry_edits name hop hzset
        exact ⟨_, _, hedits.eq, wellFormed_flag _⟩
  | zrem name =>
      apply onZset_wellFormed hslot
      · exact ⟨_, _, rfl, .int (by decide) (by decide)⟩
      · intro e hzset _
        obtain ⟨zset, hedits⟩ := zremEntry_edits name hzset
        exact ⟨_, _, hedits.eq, wellFormed_flag _⟩
  | zscore name =>
      apply onZset_wellFormed hslot
      · exact ⟨_, _, rfl, .nil⟩
      · intro e hzset _
        obtain ⟨zset, reply, hedits, hreply⟩ := zscoreEntry_edits name hzset
        refine ⟨_, reply, hedits.eq, ?_⟩
        rcases hreply with ⟨rfl, _⟩ | ⟨x, rfl, _⟩
        · exact .nil
        · exact .dbl
  | zquery score name offset limit =>
      apply onZset_wellFormed hslot
      · exact ⟨_, _, rfl, .arr (by decide) (by simp)⟩
      · intro e hzset hsmall
        obtain ⟨reply, heq, hreply⟩ :=
          zqueryEntry_wellFormed hzset hsmall hop name offset limit
        exact ⟨e, reply, heq, hreply⟩

theorem SmallDatabase.slot (hsmall : SmallDatabase db) (h : db.Inv)
    (key : Bytes) (now : UInt64) : SmallSlot (live now (db.stored key)) := by
  intro e due hlive
  have hstored := Option.eq_some_of_filter_eq_some hlive
  obtain ⟨p, hholds, _⟩ := h.stored_eq_some.mp hstored
  exact ⟨(h.entries p e hholds.entry).2,
    hsmall.entries p hholds.linked e hholds.entry⟩

/-- Every request is answered by one value after what the buffer held: no other
value, whatever follows it, reads the same. -/
theorem reply_is_one_value (hreach : DatabaseReachable strtod db)
    (hsmall : SmallDatabase db) (cmd : List Bytes) (out : Bytes)
    (clock : Clock) :
    ∃ db' value, doRequest strtod cmd db out clock =
        some (db', out ++ value.encode) ∧
      value.WellFormed ∧
      ∀ (other : Value) (rest : Bytes), other.WellFormed →
        value.encode = other.encode ++ rest → other = value ∧ rest = [] := by
  have h := hreach.inv
  have hone : ∀ value : Value, value.WellFormed →
      ∀ (other : Value) (rest : Bytes), other.WellFormed →
        value.encode = other.encode ++ rest → other = value ∧ rest = [] := by
    intro value hvalue other rest hother hsame
    obtain ⟨heq, hrest⟩ := hvalue.readable other [] rest hother
      (by rw [List.append_nil]; exact hsame)
    exact ⟨heq.symm, hrest.symm⟩
  have hanswers := doRequest_answers h strtod cmd out clock
  generalize doRequest strtod cmd db out clock = result at hanswers ⊢
  generalize Request.ofCmd strtod cmd = request at hanswers
  cases hanswers with
  | reject hwf => exact ⟨db, _, rfl, hwf, hone _ hwf⟩
  | keys =>
      have hwf : (Value.arr (db.map.nodes.map fun p =>
          .str (db.key p))).WellFormed := by
        refine .arr (by rw [List.length_map]; exact hsmall.keys) ?_
        intro value hvalue
        obtain ⟨p, hp, rfl⟩ := List.mem_map.mp hvalue
        exact .str (hsmall.names p hp)
      exact ⟨db, _, rfl, hwf, hone _ hwf⟩
  | on hvalid hacts =>
      obtain ⟨after, reply, hact, hwf⟩ := Op.act_wellFormed hvalid _ clock.act
        (hsmall.slot h _ clock.lookup)
      rw [hact] at hacts
      cases hacts with
      | reply hstores => exact ⟨_, reply, rfl, hwf, hone _ hwf⟩

theorem timedKey_small : SmallDatabase timedKey := by
  have hentry : timedKey.ent 0 = some (stringEntry (ascii "a") (ascii "x")) := rfl
  refine ⟨by decide +kernel, by decide +kernel, ?_⟩
  intro p hp e he
  rw [timedKey_nodes, List.mem_singleton] at hp
  rw [hp, hentry] at he
  cases he
  exact ⟨by decide, by decide, by simp [stringEntry, HMap.nodes]⟩

theorem reply_is_one_value_timed :
    ∃ (db' : Database) (value : Value),
      doRequest (fun _ => ({}, 0)) [ascii "KEYS"] timedKey [7] ⟨10, 10⟩ =
        some (db', [7] ++ value.encode) ∧ value.WellFormed := by
  obtain ⟨db', value, hrequest, hwf, _⟩ := reply_is_one_value timedKey_reachable
    timedKey_small [ascii "KEYS"] [7] ⟨10, 10⟩
  exact ⟨db', value, hrequest, hwf⟩

end MiniRedis.Server
