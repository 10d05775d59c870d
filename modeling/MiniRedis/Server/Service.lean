import MiniRedis.Server.Expiry
import MiniRedis.Server.KeyspaceRuns
import MiniRedis.Server.RangeReplies

namespace MiniRedis.Server

open MiniRedis.Data MiniRedis.Ds MiniRedis.Store MiniRedis.Protocol

/-! The whole service on the keyspace, with a clock that goes on during a
request and with the replies that `Keyspace.exec` leaves open. -/

/-- A key is looked up at the first reading of the clock and acted on at the
second; one that falls due in between has no time left. -/
def Op.specAt (op : Op) (clock : Clock) (cell : Cell) : Cell × Option Reply :=
  match op, liveCell clock.lookup cell with
  | .ttl inMs, some (val, some deadline) =>
      (some (val, some deadline), some (.int
        (timeLeft inMs clock.act (max deadline clock.act.toNat))))
  | op, cell => op.spec clock.act cell

structure Ranked (scores : Bytes → Option Int)
    (pairs : List (Bytes × Double)) : Prop where
  increasing : pairs.Pairwise fun first second =>
    pairRank first < pairRank second
  members : ∀ name score, scores name = some score ↔
    ∃ x, (name, x) ∈ pairs ∧ Double.key x = score

inductive Op.Replies (op : Op) (clock : Clock) (cell : Cell) : Value → Prop
  | spec {r : Reply} {value : Value} (hspec : (op.specAt clock cell).2 = some r)
      (hvalue : Denotes value r) : Op.Replies op clock cell value
  | range {score : Double} {name : Bytes} {offset limit : Int}
      {scores : Bytes → Option Int} {due : Option Nat}
      {pairs : List (Bytes × Double)} {value : Value}
      (hop : op = .zquery score name offset limit)
      (hcell : liveCell clock.lookup cell = some (.zset scores, due))
      (hpairs : Ranked scores pairs)
      (hvalue : pairs.length < 2 ^ 32 →
        value = .arr (elements (selected pairs score name offset limit))) :
      Op.Replies op clock cell value
  | missing {score : Double} {name : Bytes} {offset limit : Int}
      (hop : op = .zquery score name offset limit)
      (hcell : liveCell clock.lookup cell = none) :
      Op.Replies op clock cell (.arr [])
  | wrong {score : Double} {name s : Bytes} {offset limit : Int}
      {due : Option Nat} (hop : op = .zquery score name offset limit)
      (hcell : liveCell clock.lookup cell = some (.str s, due)) :
      Op.Replies op clock cell wrongtype

/-- A request, its reply and what it leaves. `KEYS` lists every live key, and
maybe some that fell due but were not looked up since. -/
inductive Keyspace.Allows (keyspace : Keyspace) (clock : Clock) :
    Request → Value → Keyspace → Prop
  | reject (code : Nat) (msg : Bytes) :
      Keyspace.Allows keyspace clock (.reject code msg) (.err code msg) keyspace
  | keys {names : List Bytes} (distinct : names.Nodup)
      (all : ∀ key, liveCell clock.lookup (keyspace key) ≠ none → key ∈ names)
      (known : ∀ key ∈ names, keyspace key ≠ none) :
      Keyspace.Allows keyspace clock .keys (.arr (names.map .str)) keyspace
  | on {key : Bytes} {op : Op} {value : Value}
      (reply : op.Replies clock (keyspace key) value) :
      Keyspace.Allows keyspace clock (.on key op) value
        (Function.update keyspace key (op.specAt clock (keyspace key)).1)

variable {strtod : Bytes → Double × Nat} {db db' : Database}
  {now last : UInt64} {keyspace : Keyspace} {clock : Clock} {key : Bytes} {op : Op}

/-- The database holds the cells of the keyspace, except for some that fell
due. -/
structure Shows (db : Database) (keyspace : Keyspace) (last : UInt64) :
    Prop where
  inv : db.Inv
  cells : ∀ key, absSlot (db.stored key) = keyspace key ∨
    db.stored key = none ∧ liveCell last (keyspace key) = none
  bound : ∀ key e deadline, db.stored key = some (e, some deadline) →
    (deadline : Int) ≤ last.toNat + int64Max

theorem Shows.empty (last : UInt64) :
    Shows { pool := some {} } (fun _ => none) last :=
  ⟨Database.Inv.empty _ (.inr rfl), fun _ => .inl rfl, by rintro key e deadline ⟨⟩⟩

theorem Shows.later (h : Shows db keyspace last) (hle : last ≤ now) :
    Shows db keyspace now := by
  refine ⟨h.inv, ?_, ?_⟩
  · intro key
    rcases h.cells key with hsame | ⟨hnone, hdue⟩
    · exact .inl hsame
    · refine .inr ⟨hnone, ?_⟩
      rw [← liveCell_later hle, hdue]
      rfl
  · intro key e deadline hstored
    have hbound := h.bound key e deadline hstored
    have hnat := UInt64.le_iff_toNat_le.mp hle
    omega

theorem Shows.live_eq (h : Shows db keyspace now) (key : Bytes) :
    absSlot (live now (db.stored key)) = liveCell now (keyspace key) := by
  rcases h.cells key with hsame | ⟨hnone, hdue⟩
  · rw [absSlot_live, hsame]
  · rw [hnone, hdue]
    rfl

theorem Shows.congr (h : Shows db keyspace last) (hinv : db'.Inv)
    (hstored : db'.stored = db.stored) : Shows db' keyspace last := by
  refine ⟨hinv, ?_, ?_⟩
  · rw [hstored]
    exact h.cells
  · rw [hstored]
    exact h.bound

theorem Shows.reap (works : Nat) (h : Shows db keyspace now)
    (hresult : reapLoop now works db = some db') : Shows db' keyspace now := by
  obtain ⟨hinv, hkept⟩ := reapLoop_keeps h.inv hresult
  refine ⟨hinv, ?_, ?_⟩
  · intro key
    rcases hkept key with hsame | ⟨hnone, hdead⟩
    · rw [hsame]
      exact h.cells key
    · refine .inr ⟨hnone, ?_⟩
      rw [← h.live_eq key, hdead]
      rfl
  · intro key e deadline hstored
    rcases hkept key with hsame | ⟨hnone, _⟩
    · exact h.bound key e deadline (hsame ▸ hstored)
    · rw [hnone] at hstored
      cases hstored

section Acting

variable {slot slot' : Slot} {value : Value}

theorem Shows.ahead (h : Shows db keyspace now) (key : Bytes) :
    Ahead now (live now (db.stored key)) := by
  refine ⟨?_, ?_⟩
  · intro e due hlive
    exact exists_zsetInv h.inv (Option.eq_some_of_filter_eq_some hlive)
  · intro e deadline hlive
    have hstored := Option.eq_some_of_filter_eq_some hlive
    refine ⟨?_, h.bound key e deadline hstored⟩
    simpa [live, hstored, Option.filter_some, overdue] using hlive

def Op.timed : Op → Bool
  | .expire _ _ => true
  | .ttl _ => true
  | _ => false

theorem Op.act_timeless (htimed : op.timed = false) (key : Bytes)
    (now now' : UInt64) (slot : Slot) :
    op.act key now slot = op.act key now' slot := by
  cases op with
  | expire | ttl => cases htimed
  | get | set | del | persist => rcases slot with _ | ⟨e, _ | due⟩ <;> rfl
  | zadd | zrem | zscore | zquery => rfl

theorem Op.specAt_timeless (htimed : op.timed = false) (clock : Clock)
    (cell : Cell) :
    op.specAt clock cell = op.spec clock.lookup (liveCell clock.lookup cell) := by
  unfold Op.specAt
  cases op with
  | expire | ttl => cases htimed
  | get | set | del | persist | zadd | zrem | zscore | zquery =>
      rcases liveCell clock.lookup cell with _ | ⟨_ | _, _ | due⟩ <;> rfl

theorem timeLeft_due (inMs : Bool) (now : UInt64) :
    timeLeft inMs now now.toNat = 0 := by
  cases inMs <;> simp [timeLeft]

theorem remaining_due (inMs : Bool) {deadline : Nat}
    (hdue : deadline ≤ now.toNat) : remaining inMs now deadline = 0 := by
  have hpast : ¬ deadline > now.toNat := not_lt.mpr hdue
  simp only [remaining, if_neg hpast]
  cases inMs <;> rfl

theorem Op.ttl_specAt (inMs : Bool) (hahead : Ahead clock.lookup slot)
    (horder : clock.lookup ≤ clock.act) {cell : Cell}
    (hcell : absSlot slot = liveCell clock.lookup cell)
    (h : (Op.ttl inMs).act key clock.act slot = some (slot', value)) :
    ActsAs ((Op.ttl inMs).specAt clock cell) slot' value := by
  unfold Op.specAt
  rw [← hcell]
  rcases slot with _ | ⟨e, _ | deadline⟩
  · cases h
    exact .of rfl (.int (-2))
  · cases h
    exact .of rfl (.int (-1))
  · cases h
    obtain ⟨hlow, hhigh⟩ := hahead.later e deadline rfl
    have hnat := UInt64.le_iff_toNat_le.mp horder
    have hleft : remaining inMs clock.act deadline =
        timeLeft inMs clock.act (max deadline clock.act.toNat) := by
      rcases Nat.lt_or_ge clock.act.toNat deadline with hlive | hdue
      · rw [max_eq_left hlive.le, remaining_eq inMs hlive (by omega)]
      · rw [max_eq_right hdue, timeLeft_due, remaining_due inMs hdue]
    rw [hleft]
    exact .of rfl (.int _)

theorem Op.expire_specAt {unitMs n : Int} (hunit : 0 < unitMs) {cell : Cell}
    (hcell : absSlot slot = liveCell clock.lookup cell)
    (h : (Op.expire unitMs n).act key clock.act slot = some (slot', value)) :
    ActsAs ((Op.expire unitMs n).specAt clock cell) slot' value := by
  unfold Op.specAt
  rw [← hcell]
  rcases slot with _ | ⟨e, due⟩
  · cases h
    exact .of rfl (.int 0)
  · simp only [Op.act] at h
    simp only [absSlot, Option.map_some, Op.spec]
    split at h
    next hn =>
      cases h
      rw [if_pos hn]
      exact .of rfl (.int 1)
    next hn =>
      cases h
      rw [if_neg hn]
      refine .of ?_ (.int 1)
      rw [absSlot, Option.map_some, deadlineAfter_eq hunit (not_le.mp hn)]

theorem Op.act_specAt (hop : op.Valid) (hahead : Ahead clock.lookup slot)
    (horder : clock.lookup ≤ clock.act) {cell : Cell}
    (hcell : absSlot slot = liveCell clock.lookup cell)
    (h : op.act key clock.act slot = some (slot', value)) :
    ActsAs (op.specAt clock cell) slot' value := by
  cases htimed : op.timed with
  | false =>
      rw [Op.act_timeless htimed key clock.act clock.lookup] at h
      rw [Op.specAt_timeless htimed, ← hcell]
      exact Op.act_actsAs hop hahead h
  | true =>
      cases op with
      | ttl inMs => exact Op.ttl_specAt inMs hahead horder hcell h
      | expire unitMs n => exact Op.expire_specAt hop hcell h
      | _ => cases htimed

theorem Op.specAt_deadline (hop : op.Valid) (horder : clock.lookup ≤ clock.act)
    {cell : Cell} {val : Val} {deadline : Nat}
    (hcell : ∀ val deadline, liveCell clock.lookup cell = some (val, some deadline) →
      (deadline : Int) ≤ clock.lookup.toNat + int64Max)
    (h : (op.specAt clock cell).1 = some (val, some deadline)) :
    (deadline : Int) ≤ clock.act.toNat + int64Max := by
  have hnat := UInt64.le_iff_toNat_le.mp horder
  cases htimed : op.timed with
  | false =>
      rw [Op.specAt_timeless htimed] at h
      have hbound := Op.spec_deadline hop hcell h
      omega
  | true =>
      have hlater : ∀ val deadline, liveCell clock.lookup cell =
          some (val, some deadline) →
          (deadline : Int) ≤ clock.act.toNat + int64Max := by
        intro val deadline hlive
        have hbound := hcell val deadline hlive
        omega
      cases op with
      | ttl inMs =>
          unfold Op.specAt at h
          rcases hlive : liveCell clock.lookup cell with _ | ⟨old, _ | due⟩
          · rw [hlive] at h
            cases h
          · rw [hlive] at h
            cases h
          · rw [hlive] at h
            cases h
            exact hlater _ _ hlive
      | expire unitMs n =>
          unfold Op.specAt at h
          exact Op.spec_deadline hop hlater h
      | _ => cases htimed

theorem Op.specAt_reply (op : Op) (clock : Clock) (cell : Cell) :
    (∃ score name offset limit, op = .zquery score name offset limit) ∨
      ∃ r, (op.specAt clock cell).2 = some r := by
  unfold Op.specAt
  cases op with
  | zquery score name offset limit => exact .inl ⟨score, name, offset, limit, rfl⟩
  | expire unitMs n =>
      rcases liveCell clock.lookup cell with _ | ⟨val, due⟩
      · exact .inr ⟨_, rfl⟩
      · refine .inr ?_
        simp only [Op.spec]
        split <;> exact ⟨_, rfl⟩
  | get | set | del | ttl | persist | zadd | zrem | zscore =>
      rcases liveCell clock.lookup cell with _ | ⟨_ | _, _ | due⟩ <;>
        exact .inr ⟨_, rfl⟩

theorem Ranked.of_inv {zset : ZSet} {tree : BinaryTree Ptr} (h : zset.Inv tree) :
    Ranked zset.scores ((inorder tree).map (ZSet.pairOf zset)) := by
  refine ⟨(ZSetLists.of_inv h).increasing, ?_⟩
  intro name score
  rw [h.maps.pairs]
  constructor
  · rintro ⟨p, hp, rfl, rfl⟩
    exact ⟨_, List.mem_map_of_mem (h.same.mem_iff.mp hp), rfl⟩
  · rintro ⟨x, hx, rfl⟩
    obtain ⟨p, hp, hpair⟩ := List.mem_map.mp hx
    cases hpair
    exact ⟨p, h.same.mem_iff.mpr hp, rfl, rfl⟩

theorem Op.act_replies (hop : op.Valid) (hahead : Ahead clock.lookup slot)
    (horder : clock.lookup ≤ clock.act) {cell : Cell}
    (hcell : absSlot slot = liveCell clock.lookup cell)
    (h : op.act key clock.act slot = some (slot', value)) :
    op.Replies clock cell value := by
  rcases op.specAt_reply clock cell with
    ⟨score, name, offset, limit, rfl⟩ | ⟨r, hr⟩
  · rcases slot with _ | ⟨e, due⟩
    · cases h
      exact .missing rfl hcell.symm
    · by_cases htype : e.type = .zset
      · obtain ⟨tree, htree⟩ := hahead.sets e due rfl
        rw [absSlot_zset htype] at hcell
        refine .range rfl hcell.symm (.of_inv htree) ?_
        intro hsize
        rw [List.length_map, length_inorder] at hsize
        rw [Op.act, onZset_zset htype, zqueryEntry_eq htree hsize hop,
          rangeItems_eq htree hop] at h
        cases h
        rfl
      · rw [Op.act, onZset_wrong htype] at h
        cases h
        rw [absSlot_str (fun hne => htype (ne_str_iff.mp hne))] at hcell
        exact .wrong rfl hcell.symm
  · exact .spec hr ((Op.act_specAt hop hahead horder hcell h).reply r hr)

end Acting

theorem Shows.request {out out' : Bytes} {cmd : List Bytes}
    (h : Shows db keyspace clock.lookup) (horder : clock.lookup ≤ clock.act)
    (hresult : doRequest strtod cmd db out clock = some (db', out')) :
    ∃ value keyspace', out' = out ++ value.encode ∧
      keyspace.Allows clock (Request.ofCmd strtod cmd) value keyspace' ∧
      Shows db' keyspace' clock.act := by
  have hanswers := doRequest_answers h.inv strtod cmd out clock
  rw [hresult] at hanswers
  generalize Request.ofCmd strtod cmd = request at hanswers
  cases hanswers with
  | reject => exact ⟨_, _, rfl, .reject _ _, h.later horder⟩
  | keys =>
      refine ⟨_, _, rfl, ?_, h.later horder⟩
      have hkeys : (db.map.nodes.map fun p => Value.str (db.key p)) =
          (emittedKeys db).map .str := by
        rw [emittedKeys, List.map_map]
        rfl
      rw [hkeys]
      refine .keys ?_ ?_ ?_
      · exact h.inv.index.inv.nodup.map_on h.inv.index.distinct
      · intro key hlive
        rw [mem_emittedKeys h.inv]
        intro hnone
        rcases h.cells key with hsame | ⟨_, hdue⟩
        · rw [← hsame, hnone] at hlive
          exact hlive rfl
        · exact hlive hdue
      · intro key hmem
        rw [mem_emittedKeys h.inv] at hmem
        rcases h.cells key with hsame | ⟨hnone, _⟩
        · rw [← hsame, absSlot, Ne, Option.map_eq_none_iff]
          exact hmem
        · exact absurd hnone hmem
  | @on key op _ hvalid hacts =>
      obtain ⟨slot, value, haction, hstores, rfl⟩ := hacts.of_some
      have hcell := h.live_eq key
      have hspec := Op.act_specAt hvalid (h.ahead key) horder hcell haction
      refine ⟨value, _, rfl,
        .on (Op.act_replies hvalid (h.ahead key) horder hcell haction),
        hstores.inv, ?_, ?_⟩
      · intro other
        by_cases hkey : other = key
        · subst hkey
          rw [Function.update_self, hstores.stored_self]
          exact .inl hspec.cell
        · rw [Function.update_of_ne hkey, hstores.stored,
            Function.update_of_ne hkey]
          exact (h.later horder).cells other
      · intro other e deadline hstored
        by_cases hkey : other = key
        · subst hkey
          rw [hstores.stored_self] at hstored
          have hwritten : absSlot slot = some (entryVal e, some deadline) := by
            rw [hstored, absSlot, Option.map_some]
          refine Op.specAt_deadline hvalid horder ?_
            (hspec.cell.symm.trans hwritten)
          intro val due hlive
          rw [← hcell, absSlot, Option.map_eq_some_iff] at hlive
          obtain ⟨⟨e', _⟩, hslot, hcontent⟩ := hlive
          cases hcontent
          exact ((h.ahead other).later e' due hslot).2
        · rw [hstores.stored, Function.update_of_ne hkey] at hstored
          exact (h.later horder).bound other e deadline hstored

end MiniRedis.Server
