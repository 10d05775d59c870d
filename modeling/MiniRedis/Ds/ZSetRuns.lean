import MiniRedis.Ds.AvlRuns
import MiniRedis.Ds.ZSetIndex
import Mathlib.Logic.Relation

namespace MiniRedis.Ds

open MiniRedis.Data MiniRedis.Store

/-! Whole runs of a sorted set, beside the map of names to scores that a caller
expects. -/

inductive ZSetStep :
    ZSet × (Bytes → Option Int) → ZSet × (Bytes → Option Int) → Prop
  | insert {zset zset' : ZSet} {scores : Bytes → Option Int} (name : Bytes)
      (score : Double) {added : Bool} (number : score.isNaN = false)
      (result : zsetInsert zset name score = some (zset', added)) :
      ZSetStep (zset, scores)
        (zset', Function.update scores name (some score.key))
  | lookup {zset zset' : ZSet} {scores : Bytes → Option Int} (name : Bytes)
      {found : Option Ptr} (result : zsetLookup zset name = some (zset', found)) :
      ZSetStep (zset, scores) (zset', scores)
  | delete {zset middle zset' : ZSet} {scores : Bytes → Option Int}
      (name : Bytes) {node : Ptr}
      (found : zsetLookup zset name = some (middle, some node))
      (result : zsetDelete middle node = some zset') :
      ZSetStep (zset, scores) (zset', Function.update scores name none)

def ZSetReachable (zset : ZSet) (scores : Bytes → Option Int) : Prop :=
  Relation.ReflTransGen ZSetStep ({}, fun _ => none) (zset, scores)

theorem ZSetStep.maps {state state' : ZSet × (Bytes → Option Int)}
    (hstep : ZSetStep state state') (h : state.1.Maps state.2) :
    state'.1.Maps state'.2 := by
  cases hstep with
  | insert name score number result =>
      obtain ⟨_, _, hinsert, hmaps, _⟩ := zsetInsert_spec h name number
      rw [result] at hinsert
      cases hinsert
      exact hmaps
  | lookup name result =>
      obtain ⟨_, _, hlookup, hmaps, _⟩ := zsetLookup_spec h name
      rw [result] at hlookup
      cases hlookup
      exact hmaps
  | delete name found result =>
      obtain ⟨hmap, _, hlookup, hmaps, hperm, hfound⟩ := zsetLookup_spec h name
      rw [found] at hlookup
      cases hlookup
      obtain ⟨hnode, rfl⟩ := (hfound _).mp rfl
      obtain ⟨_, hdelete, hmaps'⟩ :=
        zsetDelete_spec hmaps (hperm.mem_iff.mpr hnode)
      rw [result] at hdelete
      cases hdelete
      exact hmaps'

theorem ZSetReachable.maps {zset : ZSet} {scores : Bytes → Option Int}
    (h : ZSetReachable zset scores) : zset.Maps scores := by
  have hall : ∀ state, Relation.ReflTransGen ZSetStep ({}, fun _ => none) state →
      state.1.Maps state.2 := by
    intro state hreach
    induction hreach with
    | refl => exact ZSet.Maps.empty
    | tail _ hstep ih => exact hstep.maps ih
  exact hall _ h

/-- The tree, whose nodes in order are `nodes`, and the name index hold the
pairs of one map. -/
structure ZSet.Agreement (zset : ZSet) (scores : Bytes → Option Int)
    (nodes : List Ptr) : Prop where
  order : InorderOf zset.tree zset.root nodes
  sameNodes : ∀ p, p ∈ zset.hmap.nodes ↔ p ∈ nodes
  once : zset.hmap.nodes.Nodup
  names : (nodes.map fun p => (zset.node p).name).Nodup
  increasing : (nodes.map fun p =>
    tupleRank (zset.node p).score (zset.node p).name).Pairwise (· < ·)
  pairs : ∀ name score, scores name = some score ↔
    ∃ p ∈ nodes, (zset.node p).name = name ∧ (zset.node p).score.key = score
  rootNull : zset.root = none ↔ zset.hmap.nodes = []

theorem ZSet.Maps.agreement {zset : ZSet} {scores : Bytes → Option Int}
    (h : zset.Maps scores) : ∃ nodes, zset.Agreement scores nodes := by
  obtain ⟨tree, htree⟩ := h.inv
  refine ⟨inorder tree, ?_, fun p => htree.same.mem_iff, htree.index.inv.nodup,
    ?_, ?_, ?_, htree.root_none⟩
  · rw [htree.root]
    exact htree.layout.inorderOf
  · apply (List.nodup_map_iff_inj_on htree.sorted.nodup).mpr
    intro first hfirst second hsecond hname
    exact htree.index.distinct first (htree.same.mem_iff.mpr hfirst) second
      (htree.same.mem_iff.mpr hsecond) hname
  · exact List.pairwise_map.mpr htree.sorted
  · intro name score
    rw [h.pairs]
    simp only [htree.same.mem_iff]

/-- In every state of every run both indexes hold exactly the pairs of the
expected map, in order; lookups answer from it, insertions tell new names from
known ones, and a node that a lookup found can always be deleted. -/
theorem zset_indexes_agree {zset : ZSet} {scores : Bytes → Option Int}
    (h : ZSetReachable zset scores) :
    (∃ nodes, zset.Agreement scores nodes) ∧
    (∀ name, ∃ zset' found, zsetLookup zset name = some (zset', found) ∧
      (found = none ↔ scores name = none) ∧
      ∀ p, found = some p →
        p ∈ zset'.hmap.nodes ∧ (zset'.node p).name = name ∧
        scores name = some (zset'.node p).score.key ∧
        ∃ zset'', zsetDelete zset' p = some zset'') ∧
    ∀ name score, score.isNaN = false →
      ∃ zset' added, zsetInsert zset name score = some (zset', added) ∧
        (added = true ↔ scores name = none) := by
  have hmaps := h.maps
  refine ⟨hmaps.agreement, ?_, ?_⟩
  · intro name
    obtain ⟨hmap, found, hlookup, hmaps', hperm, hfound⟩ :=
      zsetLookup_spec hmaps name
    refine ⟨_, found, hlookup, ?_, ?_⟩
    · rw [hmaps.none_iff]
      constructor
      · rintro rfl p hp hname
        have hsome := (hfound p).mpr ⟨hp, hname⟩
        cases hsome
      · intro hmiss
        cases found with
        | none => rfl
        | some p =>
            obtain ⟨hp, hname⟩ := (hfound p).mp rfl
            exact absurd hname (hmiss p hp)
    · intro p hp
      obtain ⟨hnode, hname⟩ := (hfound p).mp hp
      have hnode' := hperm.mem_iff.mpr hnode
      obtain ⟨zset'', hdelete, _⟩ := zsetDelete_spec hmaps' hnode'
      exact ⟨hnode', hname, (hmaps.pairs _ _).mpr ⟨p, hnode, hname, rfl⟩,
        zset'', hdelete⟩
  · intro name score hscore
    obtain ⟨zset', added, hinsert, _, hadded⟩ :=
      zsetInsert_spec hmaps name hscore
    exact ⟨zset', added, hinsert, hadded⟩

theorem zset_indexes_agree_rescored : ∃ zset zset' scores p,
    ZSetReachable zset scores ∧ (∃ nodes, zset.Agreement scores nodes) ∧
    scores [97] = some (Double.key ⟨0x3FF0000000000000⟩) ∧
    scores [98] = some (Double.key {}) ∧
    zsetLookup zset [97] = some (zset', some p) ∧
    (zset'.node p).score.key = Double.key ⟨0x3FF0000000000000⟩ ∧
    ∃ zset'', zsetDelete zset' p = some zset'' := by
  have heval : (do
      let first ← zsetInsert {} [97] {}
      let second ← zsetInsert first.1 [98] {}
      let rescored ← zsetInsert second.1 [97] ⟨0x3FF0000000000000⟩
      some rescored.2) = some false := by
    decide +kernel
  obtain ⟨⟨zset, _⟩, hfirst, heval⟩ := Option.bind_eq_some_iff.mp heval
  obtain ⟨⟨zset', _⟩, hsecond, heval⟩ := Option.bind_eq_some_iff.mp heval
  obtain ⟨⟨zset'', _⟩, hrescore, -⟩ := Option.bind_eq_some_iff.mp heval
  have hreach : ZSetReachable zset'' _ := .tail (.tail (.single
    (.insert [97] {} (by decide) hfirst)) (.insert [98] {} (by decide) hsecond))
    (.insert [97] ⟨0x3FF0000000000000⟩ (by decide) hrescore)
  obtain ⟨hagree, hlookups, -⟩ := zset_indexes_agree hreach
  obtain ⟨looked, found, hlookup, hmiss, hfound⟩ := hlookups [97]
  cases found with
  | none => simp at hmiss
  | some p =>
      obtain ⟨-, -, hscore, hdelete⟩ := hfound p rfl
      rw [Function.update_self] at hscore
      exact ⟨zset'', looked, _, p, hreach, hagree, rfl, rfl, hlookup,
        (Option.some.inj hscore).symm, hdelete⟩

end MiniRedis.Ds
