import MiniRedis.Server.FrameRuns
import MiniRedis.Server.RangeReplies

namespace MiniRedis.Server

open MiniRedis.Data MiniRedis.Ds MiniRedis.Store MiniRedis.Protocol

/-! The sizes of replies, against the limit on the size of a frame. -/

variable {strtod : Bytes → Double × Nat} {db db' : Database} {clock : Clock}
  {body key : Bytes} {op : Op} {slot slot' : Slot} {value : Value}

/-! What is stored came in a frame. -/

def ShortSlot (slot : Slot) : Prop :=
  ∀ e due, slot = some (e, due) → 5 + e.str.length ≤ maxMsg

def Request.Short : Request → Prop
  | .reject _ msg => 9 + msg.length ≤ maxMsg
  | .on _ (.set value) => 5 + value.length ≤ maxMsg
  | _ => True

theorem notAnInteger_short : notAnInteger.Short :=
  show 9 + (ascii "value is not an integer").length ≤ maxMsg by decide

theorem notAFloat_short : notAFloat.Short :=
  show 9 + (ascii "value is not a valid float").length ≤ maxMsg by decide

theorem Request.ofCmd_short {cmd : List Bytes}
    (h : (encodeReq cmd).length ≤ maxMsg) :
    (Request.ofCmd strtod cmd).Short := by
  rw [length_encodeReq] at h
  cases cmd with
  | nil => exact show 9 + (ascii "empty command").length ≤ maxMsg by decide
  | cons verb args =>
      simp only [Request.ofCmd]
      split
      case h_3 _ key value _ => -- `SET`, behind four length fields
        simp only [List.map_cons, List.map_nil, List.sum_cons, List.sum_nil] at h
        show 5 + value.length ≤ maxMsg
        omega
      case h_5 => -- `EXPIRE` and `PEXPIRE`
        split
        · trivial
        · exact notAnInteger_short
      case h_8 => -- `ZADD`
        split
        · trivial
        · exact notAFloat_short
      case h_11 => -- `ZQUERY`
        split
        · trivial
        · exact notAnInteger_short
        · exact notAFloat_short
      case h_12 =>
        exact show 9 + (ascii "unknown command").length ≤ maxMsg by decide
      all_goals trivial

def FitsFrame (value : Value) : Prop := value.encode.length ≤ maxMsg

theorem fits_nil : FitsFrame .nil :=
  show Value.nil.encode.length ≤ maxMsg by decide

theorem fits_int (x : Int) : FitsFrame (.int x) := by
  rw [FitsFrame, length_encode_int]
  decide

theorem fits_dbl (x : Double) : FitsFrame (.dbl x) := by
  rw [FitsFrame, length_encode_dbl]
  decide

theorem fits_wrongtype : FitsFrame wrongtype := by
  rw [FitsFrame, wrongtype, length_encode_err]
  decide

theorem shortSlot_none : ShortSlot none := by
  rintro e due ⟨⟩

theorem shortSlot_some {e : Entry} {due : Option Nat}
    (h : 5 + e.str.length ≤ maxMsg) : ShortSlot (some (e, due)) := by
  rintro _ _ ⟨⟩
  exact h

theorem onZset_short {missing : Option (Slot × Value)}
    {act : Entry → Option (Entry × Value)} {P : Value → Prop}
    (hslot : ShortSlot slot) (hwrong : P wrongtype)
    (hmissing : ∀ slot' value, missing = some (slot', value) →
      ShortSlot slot' ∧ P value)
    (hact : ∀ e e' value, act e = some (e', value) →
      e'.str = e.str ∧ P value)
    (h : onZset missing act slot = some (slot', value)) :
    ShortSlot slot' ∧ P value := by
  rcases slot with _ | ⟨e, due⟩
  · exact hmissing slot' value h
  · by_cases htype : e.type = .zset
    · rw [onZset_zset htype] at h
      obtain ⟨⟨e', _⟩, hresult, h⟩ := Option.bind_eq_some_iff.mp h
      cases h
      obtain ⟨hstr, hreply⟩ := hact e e' _ hresult
      exact ⟨shortSlot_some (hstr ▸ hslot e due rfl), hreply⟩
    · rw [onZset_wrong htype] at h
      cases h
      exact ⟨hslot, hwrong⟩

def KeepsString (act : Entry → Option (Entry × Value)) : Prop :=
  ∀ e e' value, act e = some (e', value) → e'.str = e.str ∧ FitsFrame value

theorem zaddEntry_keepsString (name : Bytes) (score : Double) :
    KeepsString (zaddEntry name score) := by
  intro e e' value h
  obtain ⟨_, _, h⟩ := Option.bind_eq_some_iff.mp h
  cases h
  exact ⟨rfl, fits_int _⟩

theorem zremEntry_keepsString (name : Bytes) : KeepsString (zremEntry name) := by
  intro e e' value h
  obtain ⟨_, _, h⟩ := Option.bind_eq_some_iff.mp h
  obtain ⟨_, _, h⟩ := Option.bind_eq_some_iff.mp h
  cases h
  exact ⟨rfl, fits_int _⟩

theorem zscoreEntry_keepsString (name : Bytes) :
    KeepsString (zscoreEntry name) := by
  intro e e' value h
  obtain ⟨⟨zset, found⟩, _, h⟩ := Option.bind_eq_some_iff.mp h
  cases found with
  | none =>
      cases h
      exact ⟨rfl, fits_nil⟩
  | some node =>
      cases h
      exact ⟨rfl, fits_dbl _⟩

/-- Setting a value writes it, and every other operation keeps or clears the
string of the entry. -/
theorem Op.act_short (hop : (Request.on key op).Short) {now : UInt64}
    (hslot : ShortSlot slot) (h : op.act key now slot = some (slot', value)) :
    ShortSlot slot' ∧ (op.isQuery = false → FitsFrame value) := by
  cases op with
  | get =>
      rcases slot with _ | ⟨e, due⟩
      · cases h
        exact ⟨hslot, fun _ => fits_nil⟩
      · cases h
        refine ⟨hslot, fun _ => ?_⟩
        split
        · exact fits_wrongtype
        · rw [FitsFrame, length_encode_str]
          exact hslot e due rfl
  | set new =>
      rcases slot with _ | ⟨e, due⟩
      · cases h
        exact ⟨shortSlot_some hop, fun _ => fits_nil⟩
      · simp only [Op.act] at h
        split at h
        · cases h
          exact ⟨hslot, fun _ => fits_wrongtype⟩
        · cases h
          exact ⟨shortSlot_some hop, fun _ => fits_nil⟩
  | del =>
      rcases slot with _ | content
      · cases h
        exact ⟨hslot, fun _ => fits_int 0⟩
      · cases h
        exact ⟨shortSlot_none, fun _ => fits_int 1⟩
  | expire unitMs n =>
      rcases slot with _ | ⟨e, due⟩
      · cases h
        exact ⟨hslot, fun _ => fits_int 0⟩
      · simp only [Op.act] at h
        split at h
        · cases h
          exact ⟨shortSlot_none, fun _ => fits_int 1⟩
        · cases h
          exact ⟨shortSlot_some (hslot e due rfl), fun _ => fits_int 1⟩
  | ttl inMs =>
      rcases slot with _ | ⟨e, _ | deadline⟩
      all_goals
        cases h
        exact ⟨hslot, fun _ => fits_int _⟩
  | persist =>
      rcases slot with _ | ⟨e, _ | deadline⟩
      · cases h
        exact ⟨hslot, fun _ => fits_int 0⟩
      · cases h
        exact ⟨hslot, fun _ => fits_int 0⟩
      · cases h
        exact ⟨shortSlot_some (hslot e _ rfl), fun _ => fits_int 1⟩
  | zadd score name =>
      have hkeeps := zaddEntry_keepsString name score
      have hboth := onZset_short hslot fits_wrongtype ?_ hkeeps h
      · exact ⟨hboth.1, fun _ => hboth.2⟩
      · intro slot' value hmissing
        obtain ⟨⟨e, _⟩, hresult, hmissing⟩ := Option.bind_eq_some_iff.mp hmissing
        cases hmissing
        obtain ⟨hstr, hfits⟩ := hkeeps _ _ _ hresult
        exact ⟨shortSlot_some (hstr ▸ (by decide : 5 + 0 ≤ maxMsg)), hfits⟩
  | zrem name =>
      have hboth := onZset_short hslot fits_wrongtype ?_
        (zremEntry_keepsString name) h
      · exact ⟨hboth.1, fun _ => hboth.2⟩
      · rintro _ _ ⟨⟩
        exact ⟨shortSlot_none, fits_int 0⟩
  | zscore name =>
      have hboth := onZset_short hslot fits_wrongtype ?_
        (zscoreEntry_keepsString name) h
      · exact ⟨hboth.1, fun _ => hboth.2⟩
      · rintro _ _ ⟨⟩
        exact ⟨shortSlot_none, fits_nil⟩
  | zquery score name offset limit =>
      refine ⟨(onZset_short (P := fun _ => True) hslot trivial ?_ ?_ h).1,
        fun hquery => by cases hquery⟩
      · rintro _ _ ⟨⟩
        exact ⟨shortSlot_none, trivial⟩
      · intro e e' value hresult
        have hsame := zqueryEntry_same score name offset limit e _ hresult
        exact ⟨congrArg Entry.str hsame, trivial⟩

/-- Every stored string fits the reply to a `GET`. -/
def ShortStrings (db : Database) : Prop :=
  ∀ key, ShortSlot (db.stored key)

theorem ShortStrings.live (h : ShortStrings db) (key : Bytes) (now : UInt64) :
    ShortSlot (live now (db.stored key)) := by
  intro e due hlive
  exact h key e due (Option.eq_some_of_filter_eq_some hlive)

theorem short_of_parseReq {cmd : List Bytes} (hbody : body.length ≤ maxMsg)
    (hparse : parseReq body [] = some (0, cmd)) :
    (Request.ofCmd strtod cmd).Short := by
  apply Request.ofCmd_short
  rcases parseReq_cases body with ⟨args, haccept, rfl, _⟩ | ⟨_, hreject⟩
  · rw [hparse] at haccept
    cases haccept
    exact hbody
  · rw [hparse] at hreject
    cases hreject

theorem doRequest_shortStrings {cmd : List Bytes} {out out' : Bytes}
    (hinv : db.Inv) (h : ShortStrings db)
    (hshort : (Request.ofCmd strtod cmd).Short)
    (hresult : doRequest strtod cmd db out clock = some (db', out')) :
    ShortStrings db' := by
  have hanswers := doRequest_answers hinv strtod cmd out clock
  rw [hresult] at hanswers
  generalize Request.ofCmd strtod cmd = request at hanswers hshort
  cases hanswers with
  | reject => exact h
  | keys => exact h
  | @on key op _ _ hacts =>
      obtain ⟨slot, value, haction, hstores, _⟩ := hacts.of_some
      intro other
      rw [hstores.stored, Function.update_apply]
      split
      · exact (Op.act_short hshort (h.live key _) haction).1
      · exact h other

theorem FrameStep.shortStrings (hstep : FrameStep strtod db db')
    (hinv : db.Inv) (h : ShortStrings db) : ShortStrings db' := by
  obtain ⟨action, hstep, hframed⟩ := hstep
  cases hstep with
  | request cmd out clock result =>
      obtain ⟨-, body, hbody, hparse⟩ := hframed
      exact doRequest_shortStrings hinv h (short_of_parseReq hbody hparse) result
  | reap now works _ result =>
      intro key
      rcases (reapLoop_keeps hinv result).2 key with hsame | ⟨hnone, _⟩
      · rw [hsame]
        exact h key
      · rw [hnone]
        exact shortSlot_none
  | take result =>
      intro key
      rw [(workerTake_keeps hinv result).2]
      exact h key
  | finish ent result =>
      intro key
      rw [(workerFinish_keeps hinv result).2]
      exact h key

theorem FrameReachable.shortStrings (h : FrameReachable strtod db) :
    ShortStrings db := by
  obtain ⟨pool, hpool, hrun⟩ := h
  induction hrun with
  | refl =>
      intro key
      exact shortSlot_none
  | tail hsteps hstep ih =>
      have hreach : FrameReachable strtod _ := ⟨pool, hpool, hsteps⟩
      exact hstep.shortStrings hreach.databaseReachable.inv ih

/-! The two replies without a bound. -/

theorem ZSetLists.unique {zset : ZSet} {pairs pairs' : List (Bytes × Double)}
    (h : ZSetLists zset pairs) (h' : ZSetLists zset pairs') : pairs = pairs' := by
  apply List.Perm.eq_of_pairwise _ h.increasing h'.increasing
    (h.members.trans h'.members.symm)
  intro first second _ _ hlt hgt
  exact absurd hgt (lt_asymm hlt)

def keysSize (db : Database) : Nat :=
  5 + (db.map.nodes.map fun p => 5 + (db.key p).length).sum

def pairsSize (pairs : List (Bytes × Double)) : Nat :=
  5 + (pairs.map fun pair => 14 + pair.1.length).sum

theorem length_encode_keys (db : Database) :
    (Value.arr (db.map.nodes.map fun p => .str (db.key p))).encode.length =
      keysSize db := by
  rw [length_encode_arr, List.map_map, keysSize]
  simp only [Function.comp_def, length_encode_str]

theorem length_encode_pairs (pairs : List (Bytes × Double)) :
    (Value.arr (elements pairs)).encode.length = pairsSize pairs := by
  rw [length_encode_arr, pairsSize, elements]
  induction pairs with
  | nil => rfl
  | cons pair pairs ih =>
      simp only [List.flatMap_cons, List.map_append, List.sum_append,
        List.map_cons, List.map_nil, List.sum_cons, List.sum_nil,
        length_encode_str, length_encode_dbl] at ih ⊢
      omega

/-- Whether the reply to a request fits a frame, from the state before it. -/
def Request.Fits (db : Database) (clock : Clock) : Request → Prop
  | .keys => keysSize db ≤ maxMsg
  | .on key (.zquery score name offset limit) =>
      ∀ e due, live clock.lookup (db.stored key) = some (e, due) →
        e.type = .zset → ∀ pairs, ZSetLists e.zset pairs →
          pairsSize (selected pairs score name offset limit) ≤ maxMsg
  | _ => True

theorem zquery_fits_iff {score : Double} {name : Bytes} {offset limit : Int}
    (h : db.Inv) (hscore : score.isNaN = false)
    (hanswerable : (Op.zquery score name offset limit).Answerable
      (live clock.lookup (db.stored key)))
    (hact : (Op.zquery score name offset limit).act key clock.act
      (live clock.lookup (db.stored key)) = some (slot', value)) :
    FitsFrame value ↔
      (Request.on key (.zquery score name offset limit)).Fits db clock := by
  cases hlive : live clock.lookup (db.stored key) with
  | none =>
      rw [hlive] at hact
      cases hact
      refine iff_of_true ?_ ?_
      · exact show (Value.arr []).encode.length ≤ maxMsg by decide
      · intro e due hsome
        rw [hlive] at hsome
        cases hsome
  | some content =>
      obtain ⟨e, due⟩ := content
      rw [hlive] at hact
      by_cases htype : e.type = .zset
      · obtain ⟨tree, htree⟩ :=
          exists_zsetInv h (Option.eq_some_of_filter_eq_some hlive)
        have hnodes := numNodes_lt htree (hanswerable e due hlive)
        have hlists := ZSetLists.of_inv htree
        rw [Op.act, onZset_zset htype, zqueryEntry_eq htree hnodes hscore,
          rangeItems_eq htree hscore] at hact
        cases hact
        rw [FitsFrame, length_encode_pairs]
        constructor
        · intro hfits e' due' hsome _ pairs hpairs
          rw [hlive] at hsome
          cases hsome
          rw [hpairs.unique hlists]
          exact hfits
        · intro hfits
          exact hfits e due hlive htype _ hlists
      · rw [Op.act, onZset_wrong htype] at hact
        cases hact
        refine iff_of_true fits_wrongtype ?_
        intro e' due' hsome hzset
        rw [hlive] at hsome
        cases hsome
        exact absurd hzset htype

theorem doRequest_fits_iff {cmd : List Bytes} {resp : Bytes} (hinv : db.Inv)
    (h : ShortStrings db) (hshort : (Request.ofCmd strtod cmd).Short)
    (hanswerable : (Request.ofCmd strtod cmd).Answerable db clock.lookup)
    (hresult : doRequest strtod cmd db [] clock = some (db', resp)) :
    resp.length ≤ maxMsg ↔ (Request.ofCmd strtod cmd).Fits db clock := by
  have hanswers := doRequest_answers hinv strtod cmd [] clock
  rw [hresult] at hanswers
  generalize Request.ofCmd strtod cmd = request at hanswers hshort hanswerable ⊢
  cases hanswers with
  | reject =>
      rw [List.nil_append, length_encode_err]
      exact iff_of_true hshort trivial
  | keys =>
      rw [List.nil_append, length_encode_keys]
      exact Iff.rfl
  | @on key op _ hvalid hacts =>
      obtain ⟨slot, value, haction, _, rfl⟩ := hacts.of_some
      have hfits := (Op.act_short hshort (h.live key _) haction).2
      rw [List.nil_append]
      cases op with
      | zquery score name offset limit =>
          exact zquery_fits_iff hinv hvalid hanswerable haction
      | _ => exact iff_of_true (hfits rfl) trivial

theorem Answers.reply_eq {out out' : Bytes} {request : Request}
    (h : Answers db out clock request (some (db', out'))) :
    ∃ value : Value, out' = out ++ value.encode := by
  cases h with
  | reject => exact ⟨_, rfl⟩
  | keys => exact ⟨_, rfl⟩
  | on _ hacts =>
      obtain ⟨_, value, _, _, hreply⟩ := hacts.of_some
      exact ⟨value, hreply⟩

theorem respond_pos {resp : Bytes} (hinv : db.Inv)
    (h : respond strtod body db clock = some (db', resp)) :
    1 ≤ resp.length := by
  rcases respond_cases body db clock with ⟨cmd, _, heq⟩ | ⟨_, heq⟩
  · have hanswers := doRequest_answers hinv strtod cmd [] clock
    rw [← heq, h] at hanswers
    obtain ⟨value, rfl⟩ := hanswers.reply_eq
    exact encode_pos value
  · rw [heq] at h
    cases h
    decide

/-- Every reply has at least one byte, and fits a frame exactly if that of its
request does: only `KEYS` and `ZQUERY` can answer more. -/
theorem reply_fits_frame_iff (hreach : FrameReachable strtod db)
    (hbody : body.length ≤ maxMsg) (clock : Clock) :
    (∀ db' resp, respond strtod body db clock = some (db', resp) →
      1 ≤ resp.length) ∧
    ((∀ cmd, parseReq body [] = some (0, cmd) →
        (Request.ofCmd strtod cmd).Answerable db clock.lookup) →
      ∃ db' resp, respond strtod body db clock = some (db', resp) ∧
        (resp.length ≤ maxMsg ↔ ∀ cmd, parseReq body [] = some (0, cmd) →
          (Request.ofCmd strtod cmd).Fits db clock)) := by
  have hinv := hreach.databaseReachable.inv
  refine ⟨fun db' resp => respond_pos hinv, ?_⟩
  intro hanswerable
  rcases respond_cases body db clock with ⟨cmd, hparse, heq⟩ | ⟨hreject, heq⟩
  · obtain ⟨⟨db', resp⟩, hresult⟩ :=
      doRequest_returns hinv [] clock (hanswerable cmd hparse)
    refine ⟨db', resp, heq.trans hresult, ?_⟩
    rw [doRequest_fits_iff hinv hreach.shortStrings
      (short_of_parseReq hbody hparse) (hanswerable cmd hparse) hresult, hparse]
    simp
  · refine ⟨db, badRequest, heq, iff_of_true (by decide) ?_⟩
    intro cmd haccept
    exact absurd haccept (hreject cmd)

def keysRequest : Bytes := encodeReq [ascii "KEYS"]

theorem keysRequest_parsed : parseReq keysRequest [] = some (0, [ascii "KEYS"]) :=
  parseReq_encodeReq ⟨by decide, by decide⟩

theorem ofCmd_keys : Request.ofCmd strtod [ascii "KEYS"] = .keys := rfl

theorem reply_fits_frame_iff_two : ∃ db db' resp,
    FrameReachable (fun _ => ({}, 0)) db ∧ keysSize db = 17 ∧
      respond (fun _ => ({}, 0)) keysRequest db ⟨0, 0⟩ = some (db', resp) ∧
      1 ≤ resp.length ∧ resp.length ≤ maxMsg := by
  have heval : (do
      let first ← respond (fun _ => ({}, 0))
        (encodeReq [ascii "SET", ascii "a", ascii "x"]) {} ⟨0, 0⟩
      let second ← respond (fun _ => ({}, 0))
        (encodeReq [ascii "SET", ascii "b", ascii "y"]) first.1 ⟨0, 0⟩
      some (keysSize second.1)) = some 17 := by
    decide +kernel
  obtain ⟨⟨first, _⟩, hfirst, heval⟩ := Option.bind_eq_some_iff.mp heval
  obtain ⟨⟨db, _⟩, hsecond, heval⟩ := Option.bind_eq_some_iff.mp heval
  have hsize : keysSize db = 17 := Option.some.inj heval
  have hreach : FrameReachable (fun _ => ({}, 0)) db :=
    (FrameReachable.empty.trans (respond_steps (by decide) hfirst)).trans
      (respond_steps (by decide) hsecond)
  obtain ⟨hpos, hfits⟩ := reply_fits_frame_iff hreach
    (by decide : keysRequest.length ≤ maxMsg) ⟨0, 0⟩
  have hrequest : ∀ cmd, parseReq keysRequest [] = some (0, cmd) →
      Request.ofCmd (fun _ => ({}, 0)) cmd = .keys := by
    intro cmd hparse
    rw [keysRequest_parsed] at hparse
    cases hparse
    exact ofCmd_keys
  obtain ⟨db', resp, hresult, hiff⟩ := hfits fun cmd hparse => by
    rw [hrequest cmd hparse]
    trivial
  refine ⟨db, db', resp, hreach, hsize, hresult, hpos _ _ hresult, hiff.mpr ?_⟩
  intro cmd hparse
  rw [hrequest cmd hparse]
  exact show keysSize db ≤ maxMsg by rw [hsize]; decide

/-! A keyspace that no frame can list. -/

theorem ofCmd_set (key value : Bytes) :
    Request.ofCmd strtod [ascii "SET", key, value] = .on key (.set value) := rfl

theorem exists_set (hreach : FrameReachable strtod db) (key value : Bytes)
    (hsize : 19 + key.length + value.length ≤ maxMsg)
    (hnone : db.stored key = none) :
    ∃ db', FrameReachable strtod db' ∧
      Stores db db' key (some (stringEntry key value, none)) := by
  have hlength : (encodeReq [ascii "SET", key, value]).length ≤ maxMsg := by
    rw [length_encodeReq]
    simp only [List.map_cons, List.map_nil, List.sum_cons, List.sum_nil]
    have hverb : (ascii "SET").length = 3 := by decide
    omega
  have hencodable : Encodable [ascii "SET", key, value] := by
    refine ⟨by simp [kMaxArgs], ?_⟩
    intro arg harg
    unfold maxMsg at hsize
    simp only [List.mem_cons, List.not_mem_nil, or_false] at harg
    obtain rfl | rfl | rfl := harg
    · decide
    · omega
    · omega
  have hact : Op.act (.set value) key (Clock.mk 0 0).act
      (live (Clock.mk 0 0).lookup (db.stored key)) =
      some (some (stringEntry key value, none), .nil) := by
    rw [hnone]
    rfl
  obtain ⟨db', resp, hrespond, hstores⟩ := respond_on strtod ⟨0, 0⟩
    hreach.databaseReachable.inv hencodable (ofCmd_set key value) hact
  exact ⟨db', hreach.trans (respond_steps hlength hrespond), hstores⟩

theorem two_le_keysSize (h : db.Inv) {first second : Bytes} {e e' : Entry}
    {due due' : Option Nat} (hne : first ≠ second)
    (hfirst : db.stored first = some (e, due))
    (hsecond : db.stored second = some (e', due')) :
    15 + first.length + second.length ≤ keysSize db := by
  obtain ⟨p, hp, hpkey⟩ := h.stored_eq_some.mp hfirst
  obtain ⟨q, hq, hqkey⟩ := h.stored_eq_some.mp hsecond
  have hpq : q ≠ p := by
    rintro rfl
    have heq := hp.entry_unique hq
    rw [← hpkey, ← hqkey, heq] at hne
    exact hne rfl
  have hrest : q ∈ db.map.nodes.erase p :=
    h.nodup.mem_erase_iff.mpr ⟨hpq, hq.linked⟩
  have hperm : db.map.nodes.Perm (p :: q :: (db.map.nodes.erase p).erase q) :=
    (List.perm_cons_erase hp.linked).trans
      ((List.perm_cons_erase hrest).cons p)
  have hsum := (hperm.map fun p => 5 + (db.key p).length).sum_nat
  rw [keysSize, hsum, List.map_cons, List.map_cons, List.sum_cons,
    List.sum_cons, Database.key_eq hp.entry, Database.key_eq hq.entry, hpkey,
    hqkey]
  omega

theorem respond_keys (h : db.Inv) (clock : Clock) :
    ∃ resp, respond strtod keysRequest db clock = some (db, resp) ∧
      resp.length = keysSize db := by
  have hanswers := doRequest_answers h strtod [ascii "KEYS"] [] clock
  rw [ofCmd_keys] at hanswers
  have hrespond : respond strtod keysRequest db clock =
      doRequest strtod [ascii "KEYS"] db [] clock := by
    simp [respond, keysRequest_parsed]
  rw [hrespond]
  generalize doRequest strtod [ascii "KEYS"] db [] clock = result at hanswers ⊢
  cases hanswers with
  | keys => exact ⟨_, rfl, length_encode_keys db⟩

def longKey (byte : UInt8) : Bytes := List.replicate 20000 byte

theorem length_longKey (byte : UInt8) : (longKey byte).length = 20000 :=
  List.length_replicate

theorem longKey_ne : longKey 97 ≠ longKey 98 := by
  intro h
  have hhead := congrArg List.head? h
  simp [longKey] at hhead

/-- Two keys that came in frames make a reply that is too large for one. -/
theorem keys_exceeds_frame : ∃ db resp,
    FrameReachable (fun _ => ({}, 0)) db ∧ keysRequest.length ≤ maxMsg ∧
      respond (fun _ => ({}, 0)) keysRequest db ⟨0, 0⟩ = some (db, resp) ∧
      maxMsg < resp.length := by
  have hempty : FrameReachable (fun _ => ({}, 0)) {} := .empty
  have hbound : ∀ byte, 19 + (longKey byte).length + [byte].length ≤ maxMsg := by
    intro byte
    rw [length_longKey, List.length_singleton]
    decide
  obtain ⟨db, hdb, hfirst⟩ :=
    exists_set hempty (longKey 97) [97] (hbound 97) rfl
  have hfresh : db.stored (longKey 98) = none := by
    rw [hfirst.stored, Function.update_of_ne longKey_ne.symm]
    rfl
  obtain ⟨db', hdb', hsecond⟩ :=
    exists_set hdb (longKey 98) [98] (hbound 98) hfresh
  have hkept : db'.stored (longKey 97) =
      some (stringEntry (longKey 97) [97], none) := by
    rw [hsecond.stored, Function.update_of_ne longKey_ne]
    exact hfirst.stored_self
  have hinv := hdb'.databaseReachable.inv
  have hsize := two_le_keysSize hinv longKey_ne hkept hsecond.stored_self
  rw [length_longKey, length_longKey] at hsize
  obtain ⟨resp, hresult, hlength⟩ := respond_keys hinv ⟨0, 0⟩
  refine ⟨db', resp, hdb', by decide, hresult, ?_⟩
  rw [hlength]
  exact Nat.lt_of_lt_of_le (by decide) hsize

end MiniRedis.Server
