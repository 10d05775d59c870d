import Mathlib.Data.List.Nodup
import Mathlib.Logic.Function.Basic

namespace MiniRedis.Data

/-! Lists that are linked through a memory of next pointers, and arrays of
their heads. -/

variable {α : Type} {next next' : α → Option α} {head : Option α}
  {chain before after : List α} {p node : α}

def Linked (next : α → Option α) : Option α → List α → Prop
  | head, [] => head = none
  | head, p :: rest => head = some p ∧ Linked next (next p) rest

namespace Linked

theorem head_eq (h : Linked next head chain) : head = chain.head? := by
  cases chain with
  | nil => exact h
  | cons p rest => exact h.1

theorem rest (h : Linked next head (before ++ p :: after)) :
    Linked next (next p) after := by
  induction before generalizing head with
  | nil => exact h.2
  | cons q before ih => exact ih h.2

theorem congr (h : Linked next head chain)
    (hsame : ∀ p ∈ chain, next' p = next p) : Linked next' head chain := by
  induction chain generalizing head with
  | nil => exact h
  | cons p chain ih =>
      refine ⟨h.1, ?_⟩
      rw [hsame p List.mem_cons_self]
      exact ih h.2 fun q hq => hsame q (List.mem_cons_of_mem p hq)

variable [DecidableEq α]

theorem cons (h : Linked next head chain) (hnew : p ∉ chain) :
    Linked (Function.update next p head) (some p) (p :: chain) := by
  refine ⟨rfl, ?_⟩
  rw [Function.update_self]
  refine h.congr ?_
  intro q hq
  refine Function.update_of_ne ?_ _ _
  rintro rfl
  exact hnew hq

theorem unlink (h : Linked next head (before ++ p :: node :: after))
    (hnodup : (before ++ p :: node :: after).Nodup) :
    Linked (Function.update next p (next node)) head (before ++ p :: after) := by
  induction before generalizing head with
  | nil =>
      obtain ⟨hhead, _, hafter⟩ := h
      refine ⟨hhead, ?_⟩
      rw [Function.update_self]
      refine hafter.congr ?_
      intro q hq
      refine Function.update_of_ne ?_ _ _
      rintro rfl
      exact (List.nodup_cons.mp hnodup).1 (List.mem_cons_of_mem node hq)
  | cons q before ih =>
      obtain ⟨hq, hnodup⟩ := List.nodup_cons.mp hnodup
      refine ⟨h.1, ?_⟩
      have hne : q ≠ p := by
        rintro rfl
        exact hq (List.mem_append_right _ List.mem_cons_self)
      rw [Function.update_of_ne hne]
      exact ih h.2 hnodup

end Linked

structure LinkedHeads (next : α → Option α) (heads : List (Option α))
    (chains : List (List α)) : Prop where
  length : heads.length = chains.length
  linked : ∀ (i : Nat) (chain : List α), chains[i]? = some chain →
    ∃ head, heads[i]? = some head ∧ Linked next head chain

theorem not_mem_of_flatten_nodup {chains : List (List α)} {i j : Nat}
    {other : List α} (hnodup : chains.flatten.Nodup)
    (hchain : chains[i]? = some chain) (hother : chains[j]? = some other)
    (hne : j ≠ i) (hp : p ∈ chain) : p ∉ other := by
  have hdisjoint := (List.nodup_flatten.mp hnodup).2
  rw [List.pairwise_iff_getElem] at hdisjoint
  obtain ⟨hi, rfl⟩ := List.getElem?_eq_some_iff.mp hchain
  obtain ⟨hj, rfl⟩ := List.getElem?_eq_some_iff.mp hother
  intro hmem
  rcases Nat.lt_or_gt_of_ne hne with hlt | hlt
  · exact hdisjoint j i hj hi hlt hmem hp
  · exact hdisjoint i j hi hj hlt hp hmem

namespace LinkedHeads

variable {heads : List (Option α)} {chains : List (List α)} {i : Nat}

theorem replicate (n : Nat) :
    LinkedHeads next (List.replicate n none) (List.replicate n []) := by
  refine ⟨by rw [List.length_replicate, List.length_replicate], ?_⟩
  intro i chain hchain
  rw [List.getElem?_replicate] at hchain ⊢
  split at hchain
  next hi =>
    cases hchain
    exact ⟨none, if_pos hi, rfl⟩
  next => cases hchain

theorem congr (h : LinkedHeads next heads chains)
    (hsame : ∀ p ∈ chains.flatten, next' p = next p) :
    LinkedHeads next' heads chains := by
  refine ⟨h.length, ?_⟩
  intro i chain hchain
  obtain ⟨head, hhead, hlinked⟩ := h.linked i chain hchain
  refine ⟨head, hhead, hlinked.congr ?_⟩
  intro p hp
  exact hsame p (List.mem_flatten.mpr ⟨chain, List.mem_of_getElem? hchain, hp⟩)

theorem set (h : LinkedHeads next heads chains) (hnew : Linked next' head chain)
    (hsame : ∀ (j : Nat) (other : List α), chains[j]? = some other → j ≠ i →
      ∀ p ∈ other, next' p = next p) :
    LinkedHeads next' (heads.set i head) (chains.set i chain) := by
  refine ⟨by rw [List.length_set, List.length_set, h.length], ?_⟩
  intro j other hother
  by_cases heq : i = j
  · rw [heq, List.getElem?_set_self'] at hother ⊢
    obtain ⟨old, hold, rfl⟩ := Option.map_eq_some_iff.mp hother
    obtain ⟨first, hfirst, _⟩ := h.linked j old hold
    exact ⟨head, by rw [hfirst]; rfl, hnew⟩
  · rw [List.getElem?_set_ne heq] at hother ⊢
    obtain ⟨first, hfirst, hlinked⟩ := h.linked j other hother
    exact ⟨first, hfirst, hlinked.congr (hsame j other hother (Ne.symm heq))⟩

theorem unlink_head (h : LinkedHeads next heads chains)
    (hchain : chains[i]? = some (node :: after)) :
    LinkedHeads next (heads.set i (next node)) (chains.set i after) := by
  obtain ⟨_, _, _, hafter⟩ := h.linked i _ hchain
  exact h.set hafter fun _ _ _ _ _ _ => rfl

variable [DecidableEq α]

theorem cons (h : LinkedHeads next heads chains) (hchain : chains[i]? = some chain)
    (hhead : heads[i]? = some head) (hnew : p ∉ chains.flatten) :
    LinkedHeads (Function.update next p head) (heads.set i (some p))
      (chains.set i (p :: chain)) := by
  obtain ⟨_, hfirst, hlinked⟩ := h.linked i chain hchain
  rw [hhead] at hfirst
  cases hfirst
  have hout : ∀ other ∈ chains, p ∉ other := fun other hother hp =>
    hnew (List.mem_flatten.mpr ⟨other, hother, hp⟩)
  refine h.set (hlinked.cons (hout chain (List.mem_of_getElem? hchain))) ?_
  intro j other hother _ q hq
  refine Function.update_of_ne ?_ _ _
  rintro rfl
  exact hout other (List.mem_of_getElem? hother) hq

theorem unlink (h : LinkedHeads next heads chains) (hnodup : chains.flatten.Nodup)
    (hchain : chains[i]? = some (before ++ p :: node :: after)) :
    LinkedHeads (Function.update next p (next node)) heads
      (chains.set i (before ++ p :: after)) := by
  obtain ⟨head, hhead, hlinked⟩ := h.linked i _ hchain
  have hmine : (before ++ p :: node :: after).Nodup :=
    (List.nodup_flatten.mp hnodup).1 _ (List.mem_of_getElem? hchain)
  have hset := h.set (i := i) (hlinked.unlink hmine) ?_
  · obtain ⟨hi, hget⟩ := List.getElem?_eq_some_iff.mp hhead
    rw [← hget, List.set_getElem_self] at hset
    exact hset
  · intro j other hother hne q hq
    refine Function.update_of_ne ?_ _ _
    rintro rfl
    exact not_mem_of_flatten_nodup hnodup hchain hother hne
      (List.mem_append_right _ List.mem_cons_self) hq

end LinkedHeads

end MiniRedis.Data
