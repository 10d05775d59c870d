import MiniRedis.Server.DatabaseRuns
import MiniRedis.Server.Returns

namespace MiniRedis.Server

open MiniRedis.Data MiniRedis.Ds MiniRedis.Store MiniRedis.Protocol

/-! What `ZQUERY` answers, in terms of the set's pairs in order. -/

variable {strtod : Bytes → Double × Nat} {db : Database} {clock : Clock}
  {key name : Bytes} {e : Entry} {due : Option Nat} {zset : ZSet}
  {tree : BinaryTree Ptr} {score : Double} {offset limit : Int}

def pairRank (pair : Bytes × Double) : Int ×ₗ List Nat :=
  tupleRank pair.2 pair.1

def ZSet.pairOf (zset : ZSet) (p : Ptr) : Bytes × Double :=
  ((zset.node p).name, (zset.node p).score)

structure ZSetLists (zset : ZSet) (pairs : List (Bytes × Double)) : Prop where
  members : pairs.Perm (zset.hmap.nodes.map (ZSet.pairOf zset))
  increasing : pairs.Pairwise fun first second =>
    pairRank first < pairRank second

def pairsBelow (pairs : List (Bytes × Double)) (score : Double)
    (name : Bytes) : Nat :=
  pairs.countP fun pair => decide (pairRank pair < tupleRank score name)

/-- The pairs a query selects: none if its start is outside the sequence, and
otherwise those from the start on until `limit` elements are reached. -/
def selected (pairs : List (Bytes × Double)) (score : Double) (name : Bytes)
    (offset limit : Int) : List (Bytes × Double) :=
  let below := pairsBelow pairs score name
  if below = pairs.length ∨ below + offset < 0 ∨
      (pairs.length : Int) ≤ below + offset then
    []
  else
    (pairs.drop (below + offset).toNat).take ((limit + 1) / 2).toNat

theorem length_selected_le (pairs : List (Bytes × Double)) (score : Double)
    (name : Bytes) (offset limit : Int) :
    (selected pairs score name offset limit).length ≤ pairs.length := by
  unfold selected
  dsimp only
  split
  · exact Nat.zero_le _
  · rw [List.length_take, List.length_drop]
    omega

def elements (pairs : List (Bytes × Double)) : List Value :=
  pairs.flatMap fun pair => [.str pair.1, .dbl pair.2]

theorem length_elements (pairs : List (Bytes × Double)) :
    (elements pairs).length = 2 * pairs.length := by
  induction pairs with
  | nil => rfl
  | cons pair pairs ih =>
      rw [elements, List.flatMap_cons, List.length_append] at *
      simp only [List.length_cons, List.length_nil, ih]
      omega

theorem encode_elements (pairs : List (Bytes × Double)) :
    (Value.arr (elements pairs)).encode =
      serArr :: (leBytes 4 (2 * pairs.length % 2 ^ 32) ++
        encodeAll (elements pairs)) := by
  rw [Value.encode, length_elements]
  exact congrArg (fun field => serArr :: (field ++ _)) (leBytes_mod 4 _).symm

theorem findIdx_eq_countP {α : Type} {below : α → Bool} {nodes : List α}
    (h : nodes.Pairwise fun first second =>
      below second = true → below first = true) :
    nodes.findIdx (fun x => !below x) = nodes.countP below := by
  induction nodes with
  | nil => rfl
  | cons x nodes ih =>
      obtain ⟨hhead, htail⟩ := List.pairwise_cons.mp h
      cases hx : below x with
      | true => simp [List.findIdx_cons, hx, ih htail]
      | false =>
          have hnone : nodes.countP below = 0 := by
            rw [List.countP_eq_zero]
            intro y hy hbelow
            rw [hhead y hy hbelow] at hx
            cases hx
          simp [List.findIdx_cons, hx, hnone]

theorem ZSetLists.of_inv (h : zset.Inv tree) :
    ZSetLists zset ((inorder tree).map (ZSet.pairOf zset)) where
  members := (h.same.map _).symm
  increasing := List.pairwise_map.mpr h.sorted

theorem seekPos_eq (h : zset.Inv tree) (hscore : score.isNaN = false)
    (name : Bytes) :
    seekPos zset (inorder tree) score name =
      pairsBelow ((inorder tree).map (ZSet.pairOf zset)) score name := by
  rw [seekPos, findIdx_eq_countP, pairsBelow, List.countP_map]
  · apply List.countP_congr
    intro p hp
    rw [zlessKey_iff (h.numbers p hp) hscore]
    exact decide_eq_true_iff.symm
  · apply List.Pairwise.imp_of_mem _ h.sorted
    intro first second hfirst hsecond hlt hbelow
    rw [zlessKey_iff (h.numbers second hsecond) hscore] at hbelow
    rw [zlessKey_iff (h.numbers first hfirst) hscore]
    exact lt_trans hlt hbelow

theorem rangeItems_eq (h : zset.Inv tree) (hscore : score.isNaN = false)
    (name : Bytes) (offset limit : Int) :
    rangeItems zset (inorder tree) score name offset limit =
      elements (selected ((inorder tree).map (ZSet.pairOf zset)) score name
        offset limit) := by
  have hseek := seekPos_eq h hscore name
  have hpair : ∀ nodes : List Ptr, nodes.flatMap (ZSet.pair zset) =
      elements (nodes.map (ZSet.pairOf zset)) := by
    intro nodes
    rw [elements, List.flatMap_map]
    rfl
  have hle : pairsBelow ((inorder tree).map (ZSet.pairOf zset)) score name ≤
      (inorder tree).length := by
    rw [pairsBelow, List.countP_map]
    exact List.countP_le_length
  simp only [rangeItems, selected, hseek, List.length_map]
  split
  next hin =>
    by_cases hend : ((inorder tree).length : Int) ≤ pairsBelow
        ((inorder tree).map (ZSet.pairOf zset)) score name + offset
    · rw [if_pos (.inr (.inr hend)), segment,
        List.drop_eq_nil_of_le (by omega), List.take_nil]
      rfl
    · rw [if_neg (by omega), segment, hpair, List.map_take, List.map_drop]
  next hout =>
    rw [if_pos (by omega)]
    rfl

/-! The whole command on a live set. -/

theorem doRequest_zquery (h : db.Inv) {cmd : List Bytes}
    (hcmd : Request.ofCmd strtod cmd = .on key (.zquery score name offset limit))
    (hlive : live clock.lookup (db.stored key) = some (e, due))
    (htype : e.type = .zset) (out : Bytes) :
    score.isNaN = false ∧ Acts db key out
      ((zqueryEntry score name offset limit e).bind fun r =>
        some (some (r.1, due), r.2)) (doRequest strtod cmd db out clock) := by
  have hanswers := doRequest_answers h strtod cmd out clock
  rw [hcmd] at hanswers
  cases hanswers with
  | on hvalid hacts =>
      refine ⟨hvalid, ?_⟩
      rw [hlive] at hacts
      rwa [Op.act, onZset_zset htype] at hacts

theorem numNodes_lt (h : zset.Inv tree)
    (hsize : zset.hmap.nodes.length < 2 ^ 32) : tree.numNodes < 2 ^ 32 := by
  rwa [h.same.length_eq, length_inorder] at hsize

/-- The reply is the array of these elements, with their number in front. -/
def ArrayReply (out reply : Bytes) (items : List Value) : Prop :=
  ∃ count, count.length = 4 ∧ leValue count = items.length ∧
    reply = out ++ serArr :: (count ++ encodeAll items)

theorem ArrayReply.length_lt {out reply : Bytes} {items : List Value}
    (h : ArrayReply out reply items) : items.length < 2 ^ 32 := by
  obtain ⟨count, hlength, hvalue, -⟩ := h
  have hlt := leValue_lt count
  rw [hlength, hvalue] at hlt
  exact hlt

/-- The count of the reply is a field of 32 bits. -/
theorem arrayReply_iff (out : Bytes) (pairs : List (Bytes × Double)) :
    ArrayReply out (out ++ (Value.arr (elements pairs)).encode) (elements pairs) ↔
      pairs.length < 2 ^ 31 := by
  constructor
  · intro h
    have hlt := h.length_lt
    rw [length_elements] at hlt
    omega
  · intro hfew
    have hlt : (elements pairs).length < 256 ^ 4 := by
      rw [length_elements]
      omega
    exact ⟨_, length_leBytes 4 _, leValue_leBytes_of_lt hlt, rfl⟩

/-- The elements of the selected pairs are in the reply to a query on a set of fewer
than `2 ^ 32` pairs. -/
theorem doRequest_selects {cmd : List Bytes} (h : db.Inv) (htree : e.zset.Inv tree)
    (hcmd : Request.ofCmd strtod cmd = .on key (.zquery score name offset limit))
    (hlive : live clock.lookup (db.stored key) = some (e, due))
    (htype : e.type = .zset) (hsize : e.zset.hmap.nodes.length < 2 ^ 32)
    (out : Bytes) :
    ∃ db', doRequest strtod cmd db out clock = some (db', out ++
      (Value.arr (elements (selected ((inorder tree).map (ZSet.pairOf e.zset)) score
        name offset limit))).encode) := by
  obtain ⟨hscore, hacts⟩ := doRequest_zquery h hcmd hlive htype out
  rw [zqueryEntry_eq htree (numNodes_lt htree hsize) hscore,
    rangeItems_eq htree hscore] at hacts
  generalize doRequest strtod cmd db out clock = result at hacts ⊢
  cases hacts with
  | @reply db' => exact ⟨db', rfl⟩

/-- A query selects its pairs by rank, and its reply is their array only if they are
fewer than `2 ^ 31`.  In a set of fewer than `2 ^ 32` pairs it is so exactly then,
and their elements follow the count in any case. -/
theorem zquery_selects (hreach : DatabaseReachable strtod db)
    (hlive : live clock.lookup (db.stored key) = some (e, due))
    (htype : e.type = .zset) :
    ∃ pairs, ZSetLists e.zset pairs ∧
      ∀ (score : Double) (name : Bytes), score.isNaN = false →
        (∃ found, zsetSeekge e.zset score name = some found ∧
          found.map (ZSet.pairOf e.zset) =
            pairs[pairsBelow pairs score name]?) ∧
        ∀ (cmd : List Bytes) (offset limit : Int) (out : Bytes),
          Request.ofCmd strtod cmd =
            .on key (.zquery score name offset limit) → 0 < limit →
          (∀ db' reply, doRequest strtod cmd db out clock = some (db', reply) →
            ArrayReply out reply
              (elements (selected pairs score name offset limit)) →
            (selected pairs score name offset limit).length < 2 ^ 31) ∧
          (e.zset.hmap.nodes.length < 2 ^ 32 →
            ∃ db' reply count,
              doRequest strtod cmd db out clock = some (db', reply) ∧
              reply = out ++ serArr :: (leBytes 4 count ++ encodeAll (elements
                (selected pairs score name offset limit))) ∧
              count =
                2 * (selected pairs score name offset limit).length % 2 ^ 32 ∧
              (ArrayReply out reply
                (elements (selected pairs score name offset limit)) ↔
                (selected pairs score name offset limit).length < 2 ^ 31)) := by
  have h := hreach.inv
  obtain ⟨tree, htree⟩ :=
    exists_zsetInv h (Option.eq_some_of_filter_eq_some hlive)
  refine ⟨_, .of_inv htree, ?_⟩
  intro score name hscore
  refine ⟨⟨_, zsetSeekge_spec htree hscore name, ?_⟩, ?_⟩
  · rw [← seekPos_eq htree hscore, List.getElem?_map, seekPos,
      ← List.find?_eq_getElem?_findIdx]
  · intro cmd offset limit out hcmd _
    refine ⟨?_, ?_⟩
    · intro db' reply _ harray
      have hlt := harray.length_lt
      rw [length_elements] at hlt
      omega
    · intro hsize
      obtain ⟨db', hresult⟩ :=
        doRequest_selects h htree hcmd hlive htype hsize out
      exact ⟨db', _, _, hresult, by rw [encode_elements], rfl, arrayReply_iff out _⟩

/-- What the library's function answers for the argument `0`. -/
def strtodZero : Bytes → Double × Nat := fun _ => ({}, 1)

theorem strtodZero_number : ({} : Double).isNaN = false := rfl

def oneMember : Database :=
  afterRequest strtodZero [ascii "ZADD", ascii "z", ascii "0", ascii "a"] ⟨0, 0⟩
    {}

theorem oneMember_reachable : DatabaseReachable strtodZero oneMember :=
  DatabaseReachable.empty.request _ _

theorem oneMember_live : ∃ e, live 0 (oneMember.stored (ascii "z")) =
    some (e, none) ∧ e.type = .zset ∧ e.zset.hmap.nodes = [0] :=
  ⟨_, by rfl, by rfl, by decide +kernel⟩

def twoMembers : Database :=
  afterRequest strtodZero [ascii "ZADD", ascii "z", ascii "0", ascii "b"] ⟨0, 0⟩
    oneMember

theorem twoMembers_reachable : DatabaseReachable strtodZero twoMembers :=
  oneMember_reachable.request _ _

theorem zquery_selects_two : ∃ e pairs db' reply,
    live 0 (twoMembers.stored (ascii "z")) = some (e, none) ∧
    ZSetLists e.zset pairs ∧ pairs.length = 2 ∧
    doRequest strtodZero [ascii "ZQUERY", ascii "z", ascii "0", [], ascii "1",
      ascii "4"] twoMembers [] ⟨0, 0⟩ = some (db', reply) ∧
    reply = (Value.arr [.str (ascii "b"), .dbl {}]).encode ∧
    ArrayReply [] reply (elements (selected pairs {} [] 1 4)) := by
  obtain ⟨e, hlive, htype, hnodes⟩ : ∃ e, live (Clock.mk 0 0).lookup
      (twoMembers.stored (ascii "z")) = some (e, none) ∧ e.type = .zset ∧
        e.zset.hmap.nodes.length = 2 := ⟨_, by rfl, by rfl, by decide +kernel⟩
  obtain ⟨pairs, hlists, hquery⟩ := zquery_selects twoMembers_reachable hlive htype
  have hpairs : pairs.length = 2 := by
    rw [hlists.members.length_eq, List.length_map, hnodes]
  obtain ⟨db', reply, _, hresult, -, -, harray⟩ :=
    ((hquery {} [] strtodZero_number).2
      [ascii "ZQUERY", ascii "z", ascii "0", [], ascii "1", ascii "4"] 1 4 []
      (by rfl) (by decide)).2 (by rw [hnodes]; decide)
  have heval : (doRequest strtodZero [ascii "ZQUERY", ascii "z", ascii "0", [],
      ascii "1", ascii "4"] twoMembers [] ⟨0, 0⟩).map Prod.snd =
        some (Value.arr [.str (ascii "b"), .dbl {}]).encode := by
    decide +kernel
  rw [hresult] at heval
  have hfew := length_selected_le pairs {} [] 1 4
  exact ⟨e, pairs, db', reply, hlive, hlists, hpairs, hresult,
    Option.some.inj heval, harray.mpr (by omega)⟩

/-! Sets of any size can be reached, and with them counts that no field of the
reply can hold. -/

def memberName (i : Nat) : Bytes := leBytes 8 i

def zeroScores (n : Nat) (name : Bytes) : Option Int :=
  if name ∈ (List.range n).map memberName then some 0 else none

theorem zeroScores_succ (n : Nat) :
    Function.update (zeroScores n) (memberName n) (some 0) =
      zeroScores (n + 1) := by
  funext name
  by_cases hname : name = memberName n
  · subst hname
    simp [zeroScores, List.range_succ]
  · simp [zeroScores, List.range_succ, hname]

theorem ofCmd_zadd (name : Bytes) :
    Request.ofCmd strtodZero [ascii "ZADD", ascii "z", ascii "0", name] =
      .on (ascii "z") (.zadd {} name) := by
  have harg : str2dbl strtodZero (ascii "0") = some {} := by rfl
  have hcommand : Command strtodZero (toUpper (ascii "ZADD"))
      [ascii "z", ascii "0", name] _ := .zadd (ascii "z") name harg
  exact hcommand.ofCmd

def HoldsScores (db : Database) (scores : Bytes → Option Int) : Prop :=
  ∃ e, db.stored (ascii "z") = some (e, none) ∧ e.type = .zset ∧
    e.zset.scores = scores

theorem live_none_due (now : UInt64) (e : Entry) :
    live now (some (e, none)) = some (e, none) := by
  simp [live, overdue, Option.filter_some]

theorem zadd_holdsScores {scores : Bytes → Option Int} (name : Bytes)
    (hinv : db.Inv)
    (hslot : (db.stored (ascii "z") = none ∧ scores = fun _ => none) ∨
      HoldsScores db scores) :
    ∃ db' reply, doRequest strtodZero [ascii "ZADD", ascii "z", ascii "0", name] db []
        ⟨0, 0⟩ = some (db', reply) ∧
      HoldsScores db' (Function.update scores name (some 0)) := by
  have hanswers := doRequest_answers hinv strtodZero
    [ascii "ZADD", ascii "z", ascii "0", name] [] ⟨0, 0⟩
  rw [ofCmd_zadd] at hanswers
  generalize doRequest strtodZero
    [ascii "ZADD", ascii "z", ascii "0", name] db [] ⟨0, 0⟩ = result at hanswers ⊢
  cases hanswers with
  | on _ hacts =>
      rcases hslot with ⟨hnone, rfl⟩ | ⟨e, hstored, htype, rfl⟩
      · obtain ⟨zset, hedits⟩ := zaddEntry_edits (e := zsetEntry (ascii "z"))
          name strtodZero_number ZSet.Maps.empty.inv
        rw [hnone] at hacts
        simp only [live, Option.filter_none, Op.act, onZset, hedits.eq,
          Option.bind_eq_bind, Option.bind_some] at hacts
        cases hacts with
        | reply hstores =>
            refine ⟨_, _, rfl, _, hstores.stored_self, rfl, ?_⟩
            rw [hedits.scores]
            exact congrArg (Function.update · name _) ZSet.Maps.empty.eq_scores
      · obtain ⟨zset, hedits⟩ := zaddEntry_edits name strtodZero_number
          (exists_zsetInv hinv hstored)
        rw [hstored, live_none_due, Op.act, onZset_zset htype,
          hedits.eq] at hacts
        cases hacts with
        | reply hstores =>
            exact ⟨_, _, rfl, _, hstores.stored_self, htype, hedits.scores⟩

theorem zadd_zeroScores {n : Nat} (hinv : db.Inv)
    (hslot : (db.stored (ascii "z") = none ∧ n = 0) ∨ HoldsScores db (zeroScores n)) :
    ∃ db' reply, doRequest strtodZero
        [ascii "ZADD", ascii "z", ascii "0", memberName n] db [] ⟨0, 0⟩ =
          some (db', reply) ∧
      HoldsScores db' (zeroScores (n + 1)) := by
  rw [← zeroScores_succ]
  apply zadd_holdsScores (memberName n) hinv
  refine hslot.imp_left ?_
  rintro ⟨hnone, rfl⟩
  refine ⟨hnone, ?_⟩
  funext name
  simp [zeroScores]

theorem exists_zeroScores (n : Nat) : ∃ db,
    DatabaseReachable strtodZero db ∧ HoldsScores db (zeroScores (n + 1)) := by
  induction n with
  | zero =>
      have hreach : DatabaseReachable strtodZero {} := .empty
      obtain ⟨db, _, hresult, hholds⟩ := zadd_zeroScores hreach.inv (.inl ⟨rfl, rfl⟩)
      exact ⟨db, hreach.tail (.request _ _ _ hresult), hholds⟩
  | succ n ih =>
      obtain ⟨db, hreach, hholds⟩ := ih
      obtain ⟨db', _, hresult, hholds'⟩ := zadd_zeroScores hreach.inv (.inr hholds)
      exact ⟨db', hreach.tail (.request _ _ _ hresult), hholds'⟩

theorem memberNames_nodup {n : Nat} (hn : n ≤ 2 ^ 64) :
    ((List.range n).map memberName).Nodup := by
  apply List.Nodup.map_on _ List.nodup_range
  intro i hi j hj heq
  rw [List.mem_range] at hi hj
  rw [← leValue_leBytes_of_lt (show i < 256 ^ 8 by omega),
    ← leValue_leBytes_of_lt (show j < 256 ^ 8 by omega)]
  exact congrArg leValue heq

theorem zeroScores_members {n : Nat} (h : zset.Inv tree) (hn : n ≤ 2 ^ 64)
    (hscores : zset.scores = zeroScores n) :
    zset.hmap.nodes.length = n ∧
      ∀ p ∈ zset.hmap.nodes, (zset.node p).score.key = 0 := by
  have hmaps := h.maps
  rw [hscores] at hmaps
  have hmember : ∀ p ∈ zset.hmap.nodes,
      (zset.node p).name ∈ (List.range n).map memberName ∧
        (zset.node p).score.key = 0 := by
    intro p hp
    have hscore := (hmaps.pairs _ _).mpr ⟨p, hp, rfl, rfl⟩
    simp only [zeroScores, Option.ite_none_right_eq_some,
      Option.some.injEq] at hscore
    exact ⟨hscore.1, hscore.2.symm⟩
  refine ⟨?_, fun p hp => (hmember p hp).2⟩
  have hnodup : (zset.hmap.nodes.map fun p => (zset.node p).name).Nodup :=
    h.index.inv.nodup.map_on h.index.distinct
  have hperm : (zset.hmap.nodes.map fun p => (zset.node p).name).Perm
      ((List.range n).map memberName) := by
    rw [List.perm_ext_iff_of_nodup hnodup (memberNames_nodup hn)]
    intro name
    rw [List.mem_map]
    constructor
    · rintro ⟨p, hp, rfl⟩
      exact (hmember p hp).1
    · intro hname
      have hscore : zeroScores n name = some 0 := if_pos hname
      obtain ⟨p, hp, hpname, _⟩ := (hmaps.pairs _ _).mp hscore
      exact ⟨p, hp, hpname⟩
  simpa using hperm.length_eq

/-- From a tuple that is below every pair, a limit of two elements a pair
selects the whole sequence. -/
theorem selected_all {pairs : List (Bytes × Double)} (hne : pairs ≠ [])
    (hbelow : pairsBelow pairs score name = 0) :
    selected pairs score name 0 (2 * pairs.length) = pairs := by
  have hpos : 0 < pairs.length := List.length_pos_iff.mpr hne
  have hcount : ((2 * (pairs.length : Int) + 1) / 2).toNat = pairs.length := by
    omega
  simp only [selected, hbelow]
  rw [if_neg (by omega), hcount]
  simp

theorem tupleRank_zero_le (score : Double) (name : Bytes)
    (hscore : score.key = 0) : tupleRank {} [] ≤ tupleRank score name := by
  rw [tupleRank, tupleRank, Prod.Lex.toLex_le_toLex]
  refine .inr ⟨hscore.symm, not_lt.mp ?_⟩
  exact List.not_lex_nil

theorem pairsBelow_zero {pairs : List (Bytes × Double)}
    (h : ZSetLists zset pairs)
    (hscores : ∀ p ∈ zset.hmap.nodes, (zset.node p).score.key = 0) :
    pairsBelow pairs {} [] = 0 := by
  rw [pairsBelow, List.countP_eq_zero]
  intro pair hpair
  obtain ⟨p, hp, rfl⟩ := List.mem_map.mp (h.members.mem_iff.mp hpair)
  rw [decide_eq_true_iff, not_lt]
  exact tupleRank_zero_le _ _ (hscores p hp)

/-- A set of `2 ^ 31` pairs can be reached.  A query for all its elements
answers a count of zero before them, and so no array. -/
theorem zquery_count_wraps : ∃ (db db' : Database) (e : Entry)
    (pairs : List (Bytes × Double)) (reply : Bytes),
    DatabaseReachable strtodZero db ∧
    live 0 (db.stored (ascii "z")) = some (e, none) ∧ e.type = .zset ∧
    ZSetLists e.zset pairs ∧ pairs.length = 2 ^ 31 ∧
    selected pairs {} [] 0 (2 ^ 32) = pairs ∧
    doRequest strtodZero [ascii "ZQUERY", ascii "z", ascii "0", [], ascii "0",
      ascii "4294967296"] db [] ⟨0, 0⟩ = some (db', reply) ∧
    reply = serArr :: (leBytes 4 0 ++ encodeAll (elements pairs)) ∧
    ∀ value : Value, value.WellFormed → reply ≠ value.encode := by
  obtain ⟨db, hreach, e, hstored, htype, hscores⟩ :=
    exists_zeroScores (2 ^ 31 - 1)
  obtain ⟨tree, htree⟩ := exists_zsetInv hreach.inv hstored
  obtain ⟨hlength, hzero⟩ := zeroScores_members htree (by decide) hscores
  have hlive : live (Clock.mk 0 0).lookup (db.stored (ascii "z")) =
      some (e, none) := by rw [hstored, live_none_due]
  obtain ⟨pairs, hlists, hquery⟩ : ∃ pairs, ZSetLists e.zset pairs ∧
      ∀ cmd offset limit, Request.ofCmd strtodZero cmd =
        .on (ascii "z") (.zquery {} [] offset limit) →
        ∃ db', doRequest strtodZero cmd db [] ⟨0, 0⟩ = some (db', [] ++
          (Value.arr (elements (selected pairs {} [] offset limit))).encode) :=
    ⟨_, .of_inv htree, fun _ _ _ hcmd => doRequest_selects hreach.inv htree hcmd hlive
      htype (by rw [hlength]; decide) []⟩
  have hpairs : pairs.length = 2 ^ 31 := by
    rw [hlists.members.length_eq, List.length_map, hlength]
    rfl
  have hne : pairs ≠ [] := by
    intro hnil
    rw [hnil] at hpairs
    cases hpairs
  have hall : selected pairs {} [] 0 (2 ^ 32) = pairs := by
    have hselected := selected_all hne (pairsBelow_zero hlists hzero)
    rwa [hpairs] at hselected
  obtain ⟨db', hresult⟩ := hquery
    [ascii "ZQUERY", ascii "z", ascii "0", [], ascii "0", ascii "4294967296"]
    0 (2 ^ 32) (by rfl)
  have hwrapped : 2 * pairs.length % 2 ^ 32 = 0 := by
    rw [hpairs]
    decide
  rw [hall, encode_elements, hwrapped] at hresult
  refine ⟨db, db', e, pairs, _, hreach, hlive, htype, hlists, hpairs, hall,
    hresult, rfl, ?_⟩
  intro value hvalue hreply
  -- the reply starts with the empty array, and more follows
  have hempty : (Value.arr []).WellFormed := .arr (by decide) (by simp)
  obtain ⟨_, hrest⟩ := hempty.readable value (encodeAll (elements pairs)) []
    hvalue (by rw [List.append_nil]; exact hreply)
  cases pairs with
  | nil => exact hne rfl
  | cons pair pairs => cases hrest

/-! How many elements a query answers. -/

/-- The loop tests the count before it emits a pair, whatever the set. -/
theorem zqueryItems_length {fuel : Nat} {znode : Option Ptr} {n : Int}
    {items : List Value}
    (h : zqueryItems zset limit fuel znode n = some items) :
    (items.length : Int) ≤ max 0 (2 * ((limit - n + 1) / 2)) := by
  induction fuel generalizing znode n items with
  | zero =>
      cases znode with
      | none =>
          cases h
          simp
      | some p => cases h
  | succ fuel ih =>
      cases znode with
      | none =>
          cases h
          simp
      | some p =>
          rw [zqueryItems] at h
          split at h
          next hmore =>
            simp only [Option.bind_eq_bind, Option.bind_eq_some_iff,
              Option.some.injEq] at h
            obtain ⟨next, _, m, hm, rest, hrest, rfl⟩ := h
            have hcount : n + 2 = m := by
              simp only [checkedInt64, Option.ite_none_right_eq_some,
                Option.some.injEq] at hm
              exact hm.2
            have hle := ih hrest
            simp only [List.length_cons]
            omega
          next =>
            cases h
            simp

/-- What keeps a reply within the limit: an even limit, or a range that ends
before it. -/
def WithinLimit (pairs : List (Bytes × Double)) (score : Double) (name : Bytes)
    (offset limit : Int) : Prop :=
  limit ≤ 0 ∨ limit % 2 = 0 ∨ pairsBelow pairs score name = pairs.length ∨
    pairsBelow pairs score name + offset < 0 ∨
    2 * (pairs.length - (pairsBelow pairs score name + offset)) ≤ limit

theorem selected_withinLimit (pairs : List (Bytes × Double)) (score : Double)
    (name : Bytes) (offset limit : Int) :
    ((elements (selected pairs score name offset limit)).length : Int) ≤
        max limit 0 ↔ WithinLimit pairs score name offset limit := by
  rw [length_elements]
  simp only [selected, WithinLimit]
  split
  next hout =>
    simp only [List.length_nil]
    omega
  next hin =>
    rw [List.length_take, List.length_drop]
    omega

theorem zqueryEntry_even {r : Entry × Value}
    (h : zqueryEntry score name offset limit e = some r)
    (heven : limit ≤ 0 ∨ limit % 2 = 0) :
    ∃ items, r.2 = .arr items ∧ (items.length : Int) ≤ max limit 0 := by
  simp only [zqueryEntry] at h
  split at h
  next =>
    cases h
    exact ⟨[], rfl, by simp⟩
  next =>
    simp only [Option.bind_eq_bind, Option.bind_eq_some_iff,
      Option.some.injEq] at h
    obtain ⟨_, _, _, _, items, hitems, rfl⟩ := h
    have hle := zqueryItems_length hitems
    exact ⟨items, rfl, by omega⟩

/-- A reply keeps within an even limit whatever the set; the replies of a set
of fewer than `2 ^ 32` pairs keep within an odd one exactly if the range ends
before it. -/
theorem zquery_within_limit_iff (hreach : DatabaseReachable strtod db)
    (hlive : live clock.lookup (db.stored key) = some (e, due))
    (htype : e.type = .zset) {cmd : List Bytes}
    (hcmd : Request.ofCmd strtod cmd = .on key (.zquery score name offset limit))
    (out : Bytes) :
    (∀ db' out', doRequest strtod cmd db out clock = some (db', out') →
      limit ≤ 0 ∨ limit % 2 = 0 → ∃ items,
        out' = out ++ (Value.arr items).encode ∧
          (items.length : Int) ≤ max limit 0) ∧
    (e.zset.hmap.nodes.length < 2 ^ 32 → ∃ pairs db' items,
      ZSetLists e.zset pairs ∧ doRequest strtod cmd db out clock =
          some (db', out ++ (Value.arr items).encode) ∧
        ((items.length : Int) ≤ max limit 0 ↔
          WithinLimit pairs score name offset limit)) := by
  have h := hreach.inv
  refine ⟨?_, ?_⟩
  · intro db' out' hresult heven
    obtain ⟨hscore, hacts⟩ := doRequest_zquery h hcmd hlive htype out
    rw [hresult] at hacts
    generalize hquery : zqueryEntry score name offset limit e = answer at hacts
    cases answer with
    | none => cases hacts
    | some r =>
        obtain ⟨items, hitems, hle⟩ := zqueryEntry_even hquery heven
        cases hacts
        exact ⟨items, by rw [hitems], hle⟩
  · intro hsize
    obtain ⟨tree, htree⟩ :=
      exists_zsetInv h (Option.eq_some_of_filter_eq_some hlive)
    obtain ⟨db', hresult⟩ := doRequest_selects h htree hcmd hlive htype hsize out
    exact ⟨_, db', _, .of_inv htree, hresult,
      selected_withinLimit _ score name offset limit⟩

theorem zquery_within_limit_iff_two : ∃ e pairs db' items,
    live 0 (oneMember.stored (ascii "z")) = some (e, none) ∧
    ZSetLists e.zset pairs ∧
    doRequest strtodZero [ascii "ZQUERY", ascii "z", ascii "0", [], ascii "0",
      ascii "2"] oneMember [] ⟨0, 0⟩ =
        some (db', [] ++ (Value.arr items).encode) ∧
    ((items.length : Int) ≤ max 2 0 ↔ WithinLimit pairs {} [] 0 2) := by
  obtain ⟨e, hlive, htype, hnodes⟩ := oneMember_live
  have hclock : live (Clock.mk 0 0).lookup (oneMember.stored (ascii "z")) =
      some (e, none) := hlive
  obtain ⟨pairs, db', items, hlists, hresult, hiff⟩ :=
    (zquery_within_limit_iff oneMember_reachable hclock htype (by rfl :
      Request.ofCmd strtodZero [ascii "ZQUERY", ascii "z", ascii "0", [],
        ascii "0", ascii "2"] = .on (ascii "z") (.zquery {} [] 0 2)) []).2
      (by rw [hnodes]; decide)
  exact ⟨e, pairs, db', items, hlive, hlists, hresult, hiff⟩

/-- A limit of one element answers two. -/
theorem zquery_exceeds_limit : DatabaseReachable strtodZero oneMember ∧
    (doRequest strtodZero [ascii "ZQUERY", ascii "z", ascii "0", [], ascii "0",
      ascii "1"] oneMember [] ⟨0, 0⟩).map Prod.snd =
        some (Value.arr [.str (ascii "a"), .dbl {}]).encode ∧
    ¬ (([.str (ascii "a"), .dbl {}] : List Value).length : Int) ≤ max 1 0 :=
  ⟨oneMember_reachable, by decide +kernel, by decide⟩

end MiniRedis.Server
