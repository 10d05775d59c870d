import Mathlib.Logic.Equiv.Basic
import Mathlib.Order.Lattice

namespace MiniRedis.Data

/-! Min-heap order of the values at the positions below `n` of an array-encoded
binary tree, and what sifting one value up or down needs of it. -/

def parentIndex (i : Nat) : Nat := (i + 1) / 2 - 1

variable {κ : Type} [LinearOrder κ] {v : Nat → κ} {n pos : Nat}

theorem parentIndex_lt {i : Nat} (h : 0 < i) : parentIndex i < i := by
  unfold parentIndex
  omega

theorem parentIndex_eq_iff {i pos : Nat} :
    0 < i ∧ parentIndex i = pos ↔ i = 2 * pos + 1 ∨ i = 2 * pos + 2 := by
  unfold parentIndex
  omega

def HeapOrdered (v : Nat → κ) (n : Nat) : Prop :=
  ∀ i, 0 < i → i < n → v (parentIndex i) ≤ v i

/-- Ordered but for the value at `pos`, over which its neighbours are still in
order. -/
structure OrderedExcept (v : Nat → κ) (n pos : Nat) : Prop where
  apart : ∀ i, 0 < i → i < n → i ≠ pos → parentIndex i ≠ pos →
    v (parentIndex i) ≤ v i
  across : 0 < pos → ∀ i, 0 < i → i < n → parentIndex i = pos →
    v (parentIndex pos) ≤ v i

structure UpOrdered (v : Nat → κ) (n pos : Nat) : Prop
    extends OrderedExcept v n pos where
  below : ∀ i, 0 < i → i < n → parentIndex i = pos → v pos ≤ v i

structure DownOrdered (v : Nat → κ) (n pos : Nat) : Prop
    extends OrderedExcept v n pos where
  above : 0 < pos → pos < n → v (parentIndex pos) ≤ v pos

theorem HeapOrdered.orderedExcept (h : HeapOrdered v n) (pos : Nat) :
    OrderedExcept v n pos where
  apart i hi hn _ _ := h i hi hn
  across hpos0 i hi hn hparent := by
    have hlt := parentIndex_lt hi
    have hchild := h i hi hn
    rw [hparent] at hchild
    exact le_trans (h pos hpos0 (by omega)) hchild

theorem OrderedExcept.congr {v' : Nat → κ} (h : OrderedExcept v n pos)
    (hagree : ∀ i, i < n → i ≠ pos → v' i = v i) :
    OrderedExcept v' n pos where
  apart i hi hn hne hparent := by
    have hlt := parentIndex_lt hi
    rw [hagree i hn hne, hagree _ (by omega) hparent]
    exact h.apart i hi hn hne hparent
  across hpos i hi hn hparent := by
    have hlt := parentIndex_lt hi
    have hlt' := parentIndex_lt hpos
    rw [hagree i hn (by omega), hagree _ (by omega) (by omega)]
    exact h.across hpos i hi hn hparent

theorem HeapOrdered.restrict {m : Nat} (h : HeapOrdered v n) (hle : m ≤ n) :
    HeapOrdered v m :=
  fun i hi hm => h i hi (by omega)

theorem HeapOrdered.congr {v' : Nat → κ} (h : HeapOrdered v n)
    (hagree : ∀ i, i < n → v' i = v i) : HeapOrdered v' n := by
  intro i hi hn
  have hlt := parentIndex_lt hi
  rw [hagree i hn, hagree _ (by omega)]
  exact h i hi hn

theorem HeapOrdered.root_le (h : HeapOrdered v n) (i : Nat) (hi : i < n) :
    v 0 ≤ v i := by
  induction i using Nat.strong_induction_on with
  | h i ih =>
      by_cases hzero : i = 0
      · subst hzero
        exact le_refl _
      · have hpos : 0 < i := Nat.pos_of_ne_zero hzero
        have hlt := parentIndex_lt hpos
        exact le_trans (ih (parentIndex i) hlt (by omega)) (h i hpos hi)

theorem OrderedExcept.up (h : OrderedExcept v n pos) (hpos : 0 < pos)
    (hlt : v pos < v (parentIndex pos)) : UpOrdered v n pos where
  toOrderedExcept := h
  below i hi hn hparent :=
    le_trans (le_of_lt hlt) (h.across hpos i hi hn hparent)

theorem OrderedExcept.down (h : OrderedExcept v n pos)
    (habove : 0 < pos → v (parentIndex pos) ≤ v pos) : DownOrdered v n pos where
  toOrderedExcept := h
  above hpos _ := habove hpos

theorem UpOrdered.finish (h : UpOrdered v n pos)
    (habove : 0 < pos → v (parentIndex pos) ≤ v pos) : HeapOrdered v n := by
  intro i hi hn
  by_cases hself : i = pos
  · subst hself
    exact habove hi
  · by_cases hparent : parentIndex i = pos
    · rw [hparent]
      exact h.below i hi hn hparent
    · exact h.apart i hi hn hself hparent

theorem DownOrdered.finish (h : DownOrdered v n pos)
    (hbelow : ∀ i, 0 < i → i < n → parentIndex i = pos → v pos ≤ v i) :
    HeapOrdered v n := by
  intro i hi hn
  by_cases hself : i = pos
  · subst hself
    exact h.above hi hn
  · by_cases hparent : parentIndex i = pos
    · rw [hparent]
      exact hbelow i hi hn hparent
    · exact h.apart i hi hn hself hparent

theorem UpOrdered.swap (h : UpOrdered v n pos) (hpos : 0 < pos) (hn : pos < n)
    (hlt : v pos < v (parentIndex pos)) :
    UpOrdered (fun i => v (Equiv.swap pos (parentIndex pos) i)) n
      (parentIndex pos) := by
  have hparent := parentIndex_lt hpos
  have hsame : ∀ i, i ≠ pos → i ≠ parentIndex pos →
      Equiv.swap pos (parentIndex pos) i = i :=
    fun i hi hi' => Equiv.swap_apply_of_ne_of_ne hi hi'
  have hsibling : ∀ i, 0 < i → i < n → i ≠ pos →
      parentIndex i = parentIndex pos → v (parentIndex pos) ≤ v i := by
    intro i hi hin hne heq
    rw [← heq]
    exact h.apart i hi hin hne (by omega)
  have hgrand : 0 < parentIndex pos →
      v (parentIndex (parentIndex pos)) ≤ v (parentIndex pos) := by
    intro hpos'
    have hgrandparent := parentIndex_lt hpos'
    exact h.apart _ hpos' (by omega) (by omega) (by omega)
  refine ⟨⟨?_, ?_⟩, ?_⟩
  · intro i hi hin hne hne'
    have hchild := parentIndex_lt hi
    by_cases hself : i = pos
    · exact absurd (by rw [hself]) hne'
    · simp only [hsame i hself hne]
      by_cases hbelow : parentIndex i = pos
      · rw [hbelow, Equiv.swap_apply_left]
        exact h.across hpos i hi hin hbelow
      · rw [hsame _ hbelow hne']
        exact h.apart i hi hin hself hbelow
  · intro hpos' i hi hin heq
    have hgrandparent := parentIndex_lt hpos'
    simp only [hsame (parentIndex (parentIndex pos)) (by omega) (by omega)]
    by_cases hself : i = pos
    · rw [hself, Equiv.swap_apply_left]
      exact hgrand hpos'
    · have hchild := parentIndex_lt hi
      rw [hsame i hself (by omega)]
      exact le_trans (hgrand hpos') (hsibling i hi hin hself heq)
  · intro i hi hin heq
    have hchild := parentIndex_lt hi
    simp only [Equiv.swap_apply_right]
    by_cases hself : i = pos
    · rw [hself, Equiv.swap_apply_left]
      exact le_of_lt hlt
    · rw [hsame i hself (by omega)]
      exact le_trans (le_of_lt hlt) (hsibling i hi hin hself heq)

theorem DownOrdered.swap (h : DownOrdered v n pos) {child : Nat}
    (hchild : 0 < child) (hn : child < n) (hparent : parentIndex child = pos)
    (hlt : v child < v pos)
    (hmin : ∀ i, 0 < i → i < n → parentIndex i = pos → v child ≤ v i) :
    DownOrdered (fun i => v (Equiv.swap pos child i)) n child := by
  have hpos : pos < child := hparent ▸ parentIndex_lt hchild
  have hsame : ∀ i, i ≠ pos → i ≠ child → Equiv.swap pos child i = i :=
    fun i hi hi' => Equiv.swap_apply_of_ne_of_ne hi hi'
  refine ⟨⟨?_, ?_⟩, ?_⟩
  · intro i hi hin hne hne'
    have hup := parentIndex_lt hi
    by_cases hself : i = pos
    · subst hself
      simp only [Equiv.swap_apply_left, hsame (parentIndex i) (by omega) hne']
      exact h.across hi child hchild hn hparent
    · simp only [hsame i hself hne]
      by_cases hbelow : parentIndex i = pos
      · rw [hbelow, Equiv.swap_apply_left]
        exact hmin i hi hin hbelow
      · rw [hsame _ hbelow hne']
        exact h.apart i hi hin hself hbelow
  · intro _ i hi hin heq
    have hup := parentIndex_lt hi
    simp only [hparent, Equiv.swap_apply_left, hsame i (by omega) (by omega)]
    rw [← heq]
    exact h.apart i hi hin (by omega) (by omega)
  · intro _ _
    simp only [hparent, Equiv.swap_apply_left, Equiv.swap_apply_right]
    exact le_of_lt hlt

end MiniRedis.Data
