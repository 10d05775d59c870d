import MiniRedis.Server.DatabaseRuns
import MiniRedis.Server.Keyspace

namespace MiniRedis.Server

open MiniRedis.Data MiniRedis.Ds MiniRedis.Store MiniRedis.Protocol

/-! The database refines the keyspace. -/

variable {strtod : Bytes → Double × Nat} {db db' : Database} {now : UInt64}
  {key : Bytes} {op : Op}

def entryVal (e : Entry) : Val :=
  match e.type with
  | .str => .str e.str
  | .zset => .zset e.zset.scores

def absSlot (slot : Slot) : Cell :=
  slot.map fun content => (entryVal content.1, content.2)

/-- The value sent for an abstract reply; the two zeros are one score. -/
inductive Denotes : Value → Reply → Prop
  | nil : Denotes .nil .nil
  | err (code : Nat) (msg : Bytes) : Denotes (.err code msg) (.err code msg)
  | str (s : Bytes) : Denotes (.str s) (.str s)
  | int (x : Int) : Denotes (.int x) (.int x)
  | score (x : Double) : Denotes (.dbl x) (.score x.key)

theorem absSlot_live (now : UInt64) (slot : Slot) :
    absSlot (live now slot) = liveCell now (absSlot slot) := by
  cases slot with
  | none => rfl
  | some content =>
      cases hdue : overdue now content.2 <;>
        simp [absSlot, live, liveCell, Option.filter_some, hdue]

theorem absSlot_str {e : Entry} (h : ¬ e.type ≠ .str) (due : Option Nat) :
    absSlot (some (e, due)) = some (.str e.str, due) := by
  simp [absSlot, entryVal, not_not.mp h]

theorem absSlot_zset {e : Entry} (h : e.type = .zset) (due : Option Nat) :
    absSlot (some (e, due)) = some (.zset e.zset.scores, due) := by
  simp [absSlot, entryVal, h]

theorem ne_str_iff {e : Entry} : e.type ≠ .str ↔ e.type = .zset := by
  cases e.type <;> simp

/-- A live slot: its set is in order, and its deadline lies ahead by at most
the longest expiry. -/
structure Ahead (now : UInt64) (slot : Slot) : Prop where
  sets : ∀ e due, slot = some (e, due) → ∃ tree, e.zset.Inv tree
  later : ∀ e deadline, slot = some (e, some deadline) →
    now.toNat < deadline ∧ (deadline : Int) ≤ now.toNat + int64Max

structure ActsAs (spec : Cell × Option Reply) (slot : Slot) (value : Value) :
    Prop where
  cell : absSlot slot = spec.1
  reply : ∀ r, spec.2 = some r → Denotes value r

theorem ActsAs.of {cell : Cell} {slot : Slot} {value : Value} {r : Reply}
    (hcell : absSlot slot = cell) (hreply : Denotes value r) :
    ActsAs (cell, some r) slot value := by
  refine ⟨hcell, ?_⟩
  rintro _ ⟨⟩
  exact hreply

theorem remaining_eq (inMs : Bool) {deadline : Nat}
    (hlow : now.toNat < deadline)
    (hhigh : (deadline : Int) ≤ now.toNat + int64Max) :
    remaining inMs now deadline = timeLeft inMs now deadline := by
  unfold int64Max at hhigh
  have hsmall : deadline - now.toNat + 999 < 2 ^ 64 := by omega
  rw [remaining, timeLeft, if_pos hlow]
  cases inMs with
  | true =>
      rw [if_pos rfl, if_pos rfl, castInt64_of_lt (by omega)]
      omega
  | false =>
      rw [if_neg Bool.false_ne_true, if_neg Bool.false_ne_true, addUInt64,
        Nat.mod_eq_of_lt hsmall, castInt64_of_lt (by omega)]
      omega

theorem clampedTtl_eq (unitMs n : Int) :
    clampedTtl unitMs n = min n (int64Max / unitMs) * unitMs := by
  unfold clampedTtl
  split
  next hgt => rw [min_eq_right (le_of_lt hgt)]
  next hle => rw [min_eq_left (not_lt.mp hle)]

theorem deadlineAfter_eq {unitMs n : Int} (hunit : 0 < unitMs) (hn : 0 < n) :
    deadlineAfter (clampedTtl unitMs n) now =
      some (expiryDeadline now unitMs n) := by
  obtain ⟨hlow, hhigh⟩ := clampedTtl_range hunit hn
  have hcast := castUInt64_of_nonneg hlow hhigh
  rw [deadlineAfter, if_neg (not_lt.mpr hlow), expiryDeadline, ← clampedTtl_eq]
  congr 2
  omega

theorem expiryDeadline_le {unitMs n : Int} (hunit : 0 < unitMs) (hn : 0 < n) :
    (expiryDeadline now unitMs n : Int) ≤ now.toNat + int64Max := by
  obtain ⟨hlow, hhigh⟩ := clampedTtl_range hunit hn
  rw [expiryDeadline, ← clampedTtl_eq, addUInt64]
  omega

theorem expiryDeadline_exact {unitMs n : Int} (hclock : now.toNat < 2 ^ 63)
    (hunit : 0 < unitMs) (hn : 0 < n) :
    (expiryDeadline now unitMs n : Int) =
      now.toNat + min n (int64Max / unitMs) * unitMs := by
  obtain ⟨hlow, hhigh⟩ := clampedTtl_range hunit hn
  rw [expiryDeadline, ← clampedTtl_eq, addUInt64]
  unfold int64Max at hhigh
  omega

theorem Edits.absSlot_eq {act : Entry → Option (Entry × Value)} {e : Entry}
    {reply : Value} {scores : Bytes → Option Int} {zset : ZSet}
    (hedits : Edits act e reply scores zset) (htype : e.type = .zset)
    (due : Option Nat) :
    absSlot (some ({ e with zset := zset }, due)) =
      some (.zset scores, due) := by
  rw [absSlot_zset (e := { e with zset := zset }) htype due, hedits.scores]

/-- A sorted-set command acts as specified if it does on sets and without the
key; its specification refuses strings as the code does. -/
theorem onZset_actsAs {slot slot' : Slot} {value : Value}
    {missing : Option (Slot × Value)} {act : Entry → Option (Entry × Value)}
    (spec : Cell → Cell × Option Reply)
    (h : onZset missing act slot = some (slot', value))
    (hnone : missing = some (slot', value) → ActsAs (spec none) slot' value)
    (hwrong : ∀ s due, spec (some (.str s, due)) =
      (some (.str s, due), some wrongtypeReply))
    (hfound : ∀ e e' due, slot = some (e, due) → e.type = .zset →
      act e = some (e', value) →
      ActsAs (spec (some (.zset e.zset.scores, due))) (some (e', due)) value) :
    ActsAs (spec (absSlot slot)) slot' value := by
  rcases slot with _ | ⟨e, due⟩
  · exact hnone h
  · by_cases htype : e.type = .zset
    · rw [onZset_zset htype] at h
      obtain ⟨r, hact, hr⟩ := Option.bind_eq_some_iff.mp h
      cases hr
      rw [absSlot_zset htype]
      exact hfound e r.1 due rfl htype hact
    · rw [onZset_wrong htype] at h
      cases h
      have habs := absSlot_str (fun hne => htype (ne_str_iff.mp hne)) due
      rw [habs, hwrong]
      exact .of habs (.err _ _)

theorem Op.act_actsAs {slot slot' : Slot} {value : Value} (hop : op.Valid)
    (hahead : Ahead now slot)
    (h : op.act key now slot = some (slot', value)) :
    ActsAs (op.spec now (absSlot slot)) slot' value := by
  cases op with
  | get =>
      rcases slot with _ | ⟨e, due⟩
      · cases h
        exact .of rfl .nil
      · cases h
        by_cases htype : e.type ≠ .str
        · have habs := absSlot_zset (ne_str_iff.mp htype) due
          rw [habs, if_pos htype]
          exact .of habs (.err _ _)
        · have habs := absSlot_str htype due
          rw [habs, if_neg htype]
          exact .of habs (.str _)
  | set written =>
      rcases slot with _ | ⟨e, due⟩
      · cases h
        exact .of rfl .nil
      · simp only [Op.act] at h
        split at h
        next htype =>
          cases h
          have habs := absSlot_zset (ne_str_iff.mp htype) due
          rw [habs]
          exact .of habs (.err _ _)
        next htype =>
          cases h
          rw [absSlot_str htype]
          exact .of (absSlot_str (e := { e with str := written }) htype none)
            .nil
  | del =>
      rcases slot with _ | content
      · cases h
        exact .of rfl (.int 0)
      · cases h
        exact .of rfl (.int 1)
  | expire unitMs n =>
      rcases slot with _ | ⟨e, due⟩
      · cases h
        exact .of rfl (.int 0)
      · simp only [Op.act] at h
        simp only [absSlot, Option.map_some, Op.spec]
        split at h
        next hn =>
          cases h
          rw [if_pos hn]
          exact .of rfl (.int 1)
        next hn =>
          cases h
          rw [if_neg hn]
          refine .of ?_ (.int 1)
          rw [absSlot, Option.map_some, deadlineAfter_eq hop (not_le.mp hn)]
  | ttl inMs =>
      rcases slot with _ | ⟨e, _ | deadline⟩
      · cases h
        exact .of rfl (.int (-2))
      · cases h
        exact .of rfl (.int (-1))
      · cases h
        obtain ⟨hlow, hhigh⟩ := hahead.later e deadline rfl
        rw [remaining_eq inMs hlow hhigh]
        exact .of rfl (.int _)
  | persist =>
      rcases slot with _ | ⟨e, _ | deadline⟩
      · cases h
        exact .of rfl (.int 0)
      · cases h
        exact .of rfl (.int 0)
      · cases h
        exact .of rfl (.int 1)
  | zadd score name =>
      apply onZset_actsAs ((Op.zadd score name).spec now) h
      · intro hmissing
        obtain ⟨zset, hedits⟩ :=
          zaddEntry_edits (e := zsetEntry key) name hop ZSet.Maps.empty.inv
        rw [hedits.eq] at hmissing
        cases hmissing
        have hempty : (zsetEntry key).zset.scores = fun _ => none := rfl
        rw [hempty] at hedits
        exact .of (hedits.absSlot_eq rfl none) (.int 1)
      · exact fun s due => rfl
      · intro e e' due hslot htype hact
        obtain ⟨zset, hedits⟩ :=
          zaddEntry_edits name hop (hahead.sets e due hslot)
        rw [hedits.eq] at hact
        cases hact
        exact .of (hedits.absSlot_eq htype due) (.int _)
  | zrem name =>
      apply onZset_actsAs ((Op.zrem name).spec now) h
      · rintro ⟨⟩
        exact .of rfl (.int 0)
      · exact fun s due => rfl
      · intro e e' due hslot htype hact
        obtain ⟨zset, hedits⟩ := zremEntry_edits name (hahead.sets e due hslot)
        rw [hedits.eq] at hact
        cases hact
        exact .of (hedits.absSlot_eq htype due) (.int _)
  | zscore name =>
      apply onZset_actsAs ((Op.zscore name).spec now) h
      · rintro ⟨⟩
        exact .of rfl .nil
      · exact fun s due => rfl
      · intro e e' due hslot htype hact
        obtain ⟨zset, reply, hedits, hreply⟩ :=
          zscoreEntry_edits name (hahead.sets e due hslot)
        rw [hedits.eq] at hact
        cases hact
        apply ActsAs.of (hedits.absSlot_eq htype due)
        rcases hreply with ⟨rfl, hscore⟩ | ⟨x, rfl, hscore⟩
        · rw [hscore]
          exact .nil
        · rw [hscore]
          exact .score x
  | zquery score name offset limit =>
      rcases slot with _ | ⟨e, due⟩
      · cases h
        exact ⟨rfl, by rintro r ⟨⟩⟩
      · refine ⟨?_, by rintro r ⟨⟩⟩
        by_cases htype : e.type = .zset
        · simp only [Op.act, onZset_zset htype] at h
          obtain ⟨r, hquery, hr⟩ := Option.bind_eq_some_iff.mp h
          cases hr
          rw [zqueryEntry_same score name offset limit e r hquery]
          rfl
        · simp only [Op.act, onZset_wrong htype] at h
          cases h
          rfl

theorem Op.spec_deadline {cell : Cell} {val : Val} {deadline : Nat}
    (hop : op.Valid)
    (hcell : ∀ val deadline, cell = some (val, some deadline) →
      (deadline : Int) ≤ now.toNat + int64Max)
    (h : (op.spec now cell).1 = some (val, some deadline)) :
    (deadline : Int) ≤ now.toNat + int64Max := by
  rcases cell with _ | ⟨old, due⟩
  · cases op <;> cases h
  · have hkept : due = some deadline →
        (deadline : Int) ≤ now.toNat + int64Max := by
      rintro rfl
      exact hcell old deadline rfl
    cases op with
    | expire unitMs n =>
        simp only [Op.spec] at h
        split at h
        next => cases h
        next hn =>
          cases h
          exact expiryDeadline_le hop (not_le.mp hn)
    | ttl inMs =>
        cases due with
        | none => cases h
        | some _ =>
            cases h
            exact hkept rfl
    | persist => cases due <;> cases h
    | set _ =>
        cases old with
        | str _ => cases h
        | zset _ =>
            cases h
            exact hkept rfl
    | del => cases h
    | zquery _ _ _ _ =>
        cases h
        exact hkept rfl
    | get | zadd _ _ | zrem _ | zscore _ =>
        cases old <;> cases h <;> exact hkept rfl

end MiniRedis.Server
