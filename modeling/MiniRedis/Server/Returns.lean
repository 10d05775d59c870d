import MiniRedis.Server.Dispatch
import MiniRedis.Server.RangeQuery

namespace MiniRedis.Server

open MiniRedis.Data MiniRedis.Ds MiniRedis.Store MiniRedis.Protocol

/-! Every request returns, but for queries of huge sets. -/

variable {strtod : Bytes → Double × Nat} {db : Database} {op : Op}
  {key : Bytes} {e : Entry} {due : Option Nat}

def Op.isQuery : Op → Bool
  | .zquery _ _ _ _ => true
  | _ => false

/-- Sets of `2 ^ 32` members or more have ranks that a `uint32_t` cannot count,
so that the walk of `ZQUERY` may not end. -/
def Op.Answerable (op : Op) (slot : Slot) : Prop :=
  match op with
  | .zquery _ _ _ _ => ∀ e due, slot = some (e, due) →
      e.zset.hmap.nodes.length < 2 ^ 32
  | _ => True

def Request.Answerable (request : Request) (db : Database) (now : UInt64) :
    Prop :=
  match request with
  | .on key op => op.Answerable (live now (db.stored key))
  | _ => True

theorem onZset_returns {slot : Slot} {missing : Option (Slot × Value)}
    {act : Entry → Option (Entry × Value)} (hmissing : ∃ r, missing = some r)
    (hfound : ∀ e due, slot = some (e, due) → ∃ r, act e = some r) :
    ∃ r, onZset missing act slot = some r := by
  rcases slot with _ | ⟨e, due⟩
  · exact hmissing
  · by_cases htype : e.type = .zset
    · obtain ⟨r, hact⟩ := hfound e due rfl
      exact ⟨_, by rw [onZset_zset htype, hact]; rfl⟩
    · exact ⟨_, onZset_wrong htype⟩

theorem Op.act_returns {slot : Slot} (key : Bytes) (now : UInt64)
    (hop : op.Valid)
    (hsets : ∀ e due, slot = some (e, due) → ∃ tree, e.zset.Inv tree)
    (hanswerable : op.Answerable slot) : ∃ r, op.act key now slot = some r := by
  cases op with
  | get | del => cases slot <;> exact ⟨_, rfl⟩
  | ttl _ | persist =>
      rcases slot with _ | ⟨e, _ | deadline⟩ <;> exact ⟨_, rfl⟩
  | set _ | expire _ _ =>
      cases slot with
      | none => exact ⟨_, rfl⟩
      | some _ =>
          simp only [Op.act]
          split <;> exact ⟨_, rfl⟩
  | zadd score name =>
      apply onZset_returns
      · obtain ⟨zset, hedits⟩ :=
          zaddEntry_edits (e := zsetEntry key) name hop ZSet.Maps.empty.inv
        exact ⟨_, by rw [hedits.eq]; rfl⟩
      · intro e due hslot
        obtain ⟨zset, hedits⟩ := zaddEntry_edits name hop (hsets e due hslot)
        exact ⟨_, hedits.eq⟩
  | zrem name =>
      apply onZset_returns ⟨_, rfl⟩
      intro e due hslot
      obtain ⟨zset, hedits⟩ := zremEntry_edits name (hsets e due hslot)
      exact ⟨_, hedits.eq⟩
  | zscore name =>
      apply onZset_returns ⟨_, rfl⟩
      intro e due hslot
      obtain ⟨zset, reply, hedits, _⟩ :=
        zscoreEntry_edits name (hsets e due hslot)
      exact ⟨_, hedits.eq⟩
  | zquery score name offset limit =>
      apply onZset_returns ⟨_, rfl⟩
      intro e due hslot
      obtain ⟨tree, htree⟩ := hsets e due hslot
      have hsize : tree.numNodes < 2 ^ 32 := by
        rw [← length_inorder, ← htree.same.length_eq]
        exact hanswerable e due hslot
      exact ⟨_, zqueryEntry_eq htree hsize hop name offset limit⟩

theorem exists_zsetInv (h : db.Inv) (hstored : db.stored key = some (e, due)) :
    ∃ tree, e.zset.Inv tree := by
  obtain ⟨p, hholds, _⟩ := h.stored_eq_some.mp hstored
  exact (h.entries p e hholds.entry).2

theorem doRequest_returns {cmd : List Bytes} (h : db.Inv) (out : Bytes)
    (clock : Clock)
    (hanswerable : (Request.ofCmd strtod cmd).Answerable db clock.lookup) :
    ∃ result, doRequest strtod cmd db out clock = some result := by
  have hanswers := doRequest_answers h strtod cmd out clock
  generalize doRequest strtod cmd db out clock = result at hanswers ⊢
  generalize Request.ofCmd strtod cmd = request at hanswers hanswerable
  cases hanswers with
  | reject => exact ⟨_, rfl⟩
  | keys => exact ⟨_, rfl⟩
  | @on key op _ hvalid hacts =>
      have hsets : ∀ e due, live clock.lookup (db.stored key) = some (e, due) →
          ∃ tree, e.zset.Inv tree := fun e due hlive =>
        exists_zsetInv h (Option.eq_some_of_filter_eq_some hlive)
      obtain ⟨r, hact⟩ := op.act_returns key clock.act hvalid hsets hanswerable
      rw [hact] at hacts
      cases hacts with
      | reply => exact ⟨_, rfl⟩

end MiniRedis.Server
