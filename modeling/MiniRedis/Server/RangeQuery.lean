import MiniRedis.Server.Request

namespace MiniRedis.Server

open MiniRedis.Data MiniRedis.Ds MiniRedis.Store MiniRedis.Protocol

/-! The elements of a range query, as a segment of the sorted sequence. -/

variable {zset : ZSet} {tree : BinaryTree Ptr}

def ZSet.pair (zset : ZSet) (p : Ptr) : List Value :=
  [.str (zset.node p).name, .dbl (zset.node p).score]

/-- The elements from position `start` on, up to the limit: the loop stops
after a whole pair. -/
def segment (zset : ZSet) (nodes : List Ptr) (start : Nat) (count : Int) :
    List Value :=
  ((nodes.drop start).take ((count + 1) / 2).toNat).flatMap (ZSet.pair zset)

theorem segment_nil {nodes : List Ptr} {start : Nat} {count : Int}
    (h : nodes[start]? = none ∨ count ≤ 0) :
    segment zset nodes start count = [] := by
  rcases h with hnone | hcount
  · rw [segment, List.drop_eq_nil_of_le (List.getElem?_eq_none_iff.mp hnone)]
    simp
  · have hzero : ((count + 1) / 2).toNat = 0 := by omega
    simp [segment, hzero]

theorem segment_cons {nodes : List Ptr} {start : Nat} {count : Int} {p : Ptr}
    (hp : nodes[start]? = some p) (hcount : 0 < count) :
    segment zset nodes start count =
      .str (zset.node p).name :: .dbl (zset.node p).score ::
        segment zset nodes (start + 1) (count - 2) := by
  have hsucc : ((count + 1) / 2).toNat = ((count - 2 + 1) / 2).toNat + 1 := by
    omega
  obtain ⟨hbound, hget⟩ := List.getElem?_eq_some_iff.mp hp
  rw [segment, segment, List.drop_eq_getElem_cons hbound, hget, hsucc,
    List.take_succ_cons, List.flatMap_cons]
  rfl

theorem nth_natCast {α : Type} (nodes : List α) (index : Nat) :
    nth nodes (index : Int) = nodes[index]? := by
  simp [nth]

theorem zqueryItems_eq (h : zset.Inv tree) (hsize : tree.numNodes < 2 ^ 32)
    {limit n : Int} {fuel start : Nat} (hn : 0 ≤ n)
    (hcount : n + 2 * ((inorder tree).length - start : Nat) ≤ int64Max)
    (hfuel : (inorder tree).length - start < fuel) :
    zqueryItems zset limit fuel (inorder tree)[start]? n =
      some (segment zset (inorder tree) start (limit - n)) := by
  induction fuel generalizing start n with
  | zero => omega
  | succ fuel ih =>
      cases hp : (inorder tree)[start]? with
      | none => rw [zqueryItems, segment_nil (.inl hp)]
      | some p =>
          have hbound := (List.getElem?_eq_some_iff.mp hp).1
          by_cases hmore : n < limit
          · have hnext : znodeOffset zset (some p) 1 =
                some (inorder tree)[start + 1]? := by
              rw [znodeOffset_spec h hsize hp 1]
              exact congrArg some (nth_natCast (inorder tree) (start + 1))
            have hchecked : checkedInt64 (n + 2) = some (n + 2) := by
              have hlow : int64Min ≤ 0 := by decide
              exact checkedInt64_eq_some (by omega) (by omega)
            have hrest : zqueryItems zset limit fuel (inorder tree)[start + 1]?
                (n + 2) = some (segment zset (inorder tree) (start + 1)
                  (limit - (n + 2))) :=
              ih (by omega) (by omega) (by omega)
            rw [segment_cons hp (by omega), sub_sub]
            simp only [zqueryItems, if_pos hmore, hnext, hchecked, hrest,
              Option.bind_eq_bind, Option.bind_some]
          · rw [zqueryItems, if_neg hmore, segment_nil (.inr (by omega))]

def seekPos (zset : ZSet) (nodes : List Ptr) (score : Double) (name : Bytes) :
    Nat :=
  nodes.findIdx fun p => !zlessKey (zset.node p) score name

def rangeItems (zset : ZSet) (nodes : List Ptr) (score : Double) (name : Bytes)
    (offset limit : Int) : List Value :=
  let start := seekPos zset nodes score name
  if start < nodes.length ∧ 0 ≤ start + offset then
    segment zset nodes (start + offset).toNat limit
  else
    []

theorem zqueryEntry_eq {e : Entry} (h : e.zset.Inv tree)
    (hsize : tree.numNodes < 2 ^ 32) {score : Double}
    (hscore : score.isNaN = false) (name : Bytes) (offset limit : Int) :
    zqueryEntry score name offset limit e = some (e, .arr
      (rangeItems e.zset (inorder tree) score name offset limit)) := by
  by_cases hlimit : limit ≤ 0
  · have hnone : rangeItems e.zset (inorder tree) score name offset limit = [] := by
      simp only [rangeItems]
      split
      · exact segment_nil (.inr hlimit)
      · rfl
    rw [zqueryEntry, if_pos hlimit, hnone]
  · have hlength : (inorder tree).length = tree.numNodes := length_inorder tree
    have hbound := h.numNodes_le
    have hmax : (2 : Int) ^ 33 ≤ int64Max := by decide
    have hseek : zsetSeekge e.zset score name =
        some (inorder tree)[seekPos e.zset (inorder tree) score name]? := by
      rw [seekPos, ← List.find?_eq_getElem?_findIdx]
      exact zsetSeekge_spec h hscore name
    -- the walk from any position the offset leads to
    have hitems : ∀ start : Nat, zqueryItems e.zset limit (e.zset.alloc + 1)
        (inorder tree)[start]? 0 =
          some (segment e.zset (inorder tree) start limit) := by
      intro start
      rw [zqueryItems_eq h hsize (le_refl 0) (by omega) (by omega), sub_zero]
    simp only [zqueryEntry, if_neg hlimit, hseek, Option.bind_eq_bind,
      Option.bind_some]
    cases hp : (inorder tree)[seekPos e.zset (inorder tree) score name]? with
    | none =>
        have hend := List.getElem?_eq_none_iff.mp hp
        rw [rangeItems, if_neg fun hstart => Nat.not_lt.mpr hend hstart.1]
        rfl
    | some p =>
        have hstart := (List.getElem?_eq_some_iff.mp hp).1
        rw [znodeOffset_spec h hsize hp offset, Option.bind_some, nth]
        by_cases hneg :
            (seekPos e.zset (inorder tree) score name : Int) + offset < 0
        · rw [rangeItems, if_pos hneg,
            if_neg fun hpos => not_le.mpr hneg hpos.2]
          rfl
        · rw [rangeItems, if_neg hneg, hitems,
            if_pos ⟨hstart, not_lt.mp hneg⟩]
          rfl

end MiniRedis.Server
