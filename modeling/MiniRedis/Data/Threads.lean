import Mathlib.Logic.Relation
import Mathlib.Tactic.ByContra

namespace MiniRedis.Data

/-! Systems of threads that take turns in any order. -/

section Totals

variable {α : Type} {threads : List α} {i : Nat} {old : α}

def total (weight : α → Nat) : List α → Nat
  | [] => 0
  | thread :: threads => weight thread + total weight threads

theorem total_set (weight : α → Nat) (new : α) (h : threads[i]? = some old) :
    total weight (threads.set i new) + weight old =
      total weight threads + weight new := by
  induction threads generalizing i with
  | nil => cases h
  | cons thread threads ih =>
      cases i with
      | zero =>
          cases h
          simp only [total, List.set_cons_zero]
          omega
      | succ i =>
          have hrest := ih h
          simp only [total, List.set_cons_succ]
          omega

theorem total_le {weight bound : α → Nat}
    (h : ∀ thread, weight thread ≤ bound thread) (threads : List α) :
    total weight threads ≤ total bound threads := by
  induction threads with
  | nil => exact Nat.le_refl 0
  | cons thread threads ih => exact Nat.add_le_add (h thread) ih

theorem total_map (weight : α → Nat) (move : α → α) (threads : List α) :
    total weight (threads.map move) =
      total (fun thread => weight (move thread)) threads := by
  induction threads with
  | nil => rfl
  | cons thread threads ih => exact congrArg (weight (move thread) + ·) ih

theorem total_eq_zero {weight : α → Nat}
    (h : ∀ thread ∈ threads, weight thread = 0) : total weight threads = 0 := by
  induction threads with
  | nil => rfl
  | cons thread threads ih =>
      rw [total, h thread (.head _), ih fun other hmem => h other (.tail _ hmem)]

theorem weight_le_total (weight : α → Nat) (h : threads[i]? = some old) :
    weight old ≤ total weight threads := by
  induction threads generalizing i with
  | nil => cases h
  | cons thread threads ih =>
      cases i with
      | zero =>
          cases h
          exact Nat.le_add_right _ _
      | succ i => exact Nat.le_trans (ih h) (Nat.le_add_left _ _)

theorem exists_of_total_pos {weight : α → Nat} (h : 0 < total weight threads) :
    ∃ thread ∈ threads, 0 < weight thread := by
  by_contra hnone
  have hzero : total weight threads = 0 := by
    refine total_eq_zero ?_
    intro thread hmem
    exact Nat.eq_zero_of_not_pos fun hpos => hnone ⟨thread, hmem, hpos⟩
  rw [hzero] at h
  exact Nat.lt_irrefl 0 h

end Totals

section Inevitable

variable {σ : Type} {step : σ → σ → Prop} {goal : σ → Prop}

/-- Whatever steps are taken, the goal is reached: no run goes on for ever
before it, and none is stuck before it. -/
inductive Inevitable (step : σ → σ → Prop) (goal : σ → Prop) : σ → Prop
  | now {s : σ} (reached : goal s) : Inevitable step goal s
  | later {s : σ} (moves : ∃ s', step s s')
      (next : ∀ s', step s s' → Inevitable step goal s') : Inevitable step goal s

/-- The goal is inevitable if every step before it brings a measure down. -/
theorem Inevitable.of_measure {inv : σ → Prop} (measure : σ → Nat)
    (hstep : ∀ s s', inv s → step s s' → inv s' ∧ measure s' < measure s)
    (hmoves : ∀ s, inv s → goal s ∨ ∃ s', step s s') {s : σ} (h : inv s) :
    Inevitable step goal s := by
  generalize hn : measure s = n
  induction n using Nat.strongRecOn generalizing s with
  | ind n ih =>
      rcases hmoves s h with hgoal | hmoves
      · exact .now hgoal
      · refine .later hmoves ?_
        intro s' hs'
        obtain ⟨hinv, hless⟩ := hstep s s' h hs'
        exact ih _ (hn ▸ hless) hinv rfl

end Inevitable

end MiniRedis.Data
