import MiniRedis.Data.Program
import Mathlib.Data.Nat.Find
import Mathlib.Data.Nat.Init
import Mathlib.Tactic.Choose

namespace MiniRedis.Data

/-! Runs that go on for ever. -/

section Runs

variable {σ : Type} {step : σ → σ → Prop} {run : Nat → σ} {start : Nat}

theorem reaches_of_steps (hrun : ∀ n, step (run n) (run (n + 1))) (n : Nat) :
    Relation.ReflTransGen step (run 0) (run n) := by
  induction n with
  | zero => exact .refl
  | succ n ih => exact ih.tail (hrun n)

theorem exists_constant_from (measure : Nat → Nat)
    (h : ∀ n ≥ start, measure (n + 1) ≤ measure n) :
    ∃ least ≥ start, ∀ n ≥ least, measure (n + 1) = measure n := by
  generalize hsize : measure start = size
  induction size using Nat.strongRecOn generalizing start with
  | ind size ih =>
      by_cases hless : ∃ n ≥ start, measure n < size
      · obtain ⟨n, hn, hless⟩ := hless
        obtain ⟨least, hleast, hconstant⟩ := ih (measure n) hless
          (fun m hm => h m (Nat.le_trans hn hm)) rfl
        exact ⟨least, Nat.le_trans hn hleast, hconstant⟩
      · have hleast : ∀ n ≥ start, measure n = size := by
          intro n hn
          induction n, hn using Nat.le_induction with
          | base => exact hsize
          | succ n hn ih =>
              have hle := h n hn
              have hnot : ¬ measure (n + 1) < size := fun hlt =>
                hless ⟨n + 1, Nat.le_succ_of_le hn, hlt⟩
              omega
        refine ⟨start, Nat.le_refl _, ?_⟩
        intro n hn
        rw [hleast n hn, hleast (n + 1) (Nat.le_succ_of_le hn)]

theorem exists_run_of_steps (inv : Nat → σ → Prop)
    (hstep : ∀ n s, inv n s → ∃ s', step s s' ∧ inv (n + 1) s') {s : σ}
    (h : inv 0 s) :
    ∃ run : Nat → σ, run 0 = s ∧ (∀ n, step (run n) (run (n + 1))) ∧
      ∀ n, inv n (run n) := by
  choose! next hnext using hstep
  let run : Nat → σ := fun n => n.rec s next
  have hrun : ∀ n, inv n (run n) := by
    intro n
    induction n with
    | zero => exact h
    | succ n ih => exact (hnext n (run n) ih).2
  exact ⟨run, rfl, fun n => (hnext n (run n) (hrun n)).1, hrun⟩

theorem exists_run {first last : σ} (h : Relation.ReflTransGen step first last)
    {rest : Nat → σ} (hstart : rest 0 = last)
    (hrest : ∀ n, step (rest n) (rest (n + 1))) :
    ∃ (run : Nat → σ) (skip : Nat), run 0 = first ∧
      (∀ n, step (run n) (run (n + 1))) ∧ ∀ n, run (skip + n) = rest n := by
  induction h using Relation.ReflTransGen.head_induction_on with
  | refl => exact ⟨rest, 0, hstart, hrest, fun n => by rw [Nat.zero_add]⟩
  | @head first next hstep _ ih =>
      obtain ⟨run, skip, hfirst, hrun, hskip⟩ := ih
      refine ⟨fun n => n.casesOn first run, skip + 1, rfl, ?_, ?_⟩
      · intro n
        cases n with
        | zero =>
            rw [← hfirst] at hstep
            exact hstep
        | succ n => exact hrun n
      · intro n
        rw [Nat.add_right_comm]
        exact hskip n

end Runs

namespace Program

variable {Call : Type} {Answer : Call → Type} {α World : Type}
  {setting : Setting Answer World}

theorem never_calls_or_calls {run : Nat → Program Answer α × World}
    (hrun : ∀ n, Step setting (run n) (run (n + 1))) :
    (∀ n, (run (n + 1)).1 = (run n).1 ∧ setting.others (run n).2 (run (n + 1)).2) ∨
    ∃ n request next answer, (run 0).1 = .call request next ∧
      (run (n + 1)).1 = next answer := by
  classical
  by_cases hcalls : ∃ n, ¬ ((run (n + 1)).1 = (run n).1 ∧
      setting.others (run n).2 (run (n + 1)).2)
  · have hbefore : ∀ n ≤ Nat.find hcalls, (run n).1 = (run 0).1 := by
      intro n hn
      induction n with
      | zero => rfl
      | succ n ih =>
          have hothers := not_not.mp (Nat.find_min hcalls hn)
          rw [hothers.1, ih (Nat.le_of_succ_le hn)]
    have hcall := Nat.find_spec hcalls
    have hfirst := hbefore _ (Nat.le_refl _)
    have hstep := hrun (Nat.find hcalls)
    generalize Nat.find hcalls = n at hcall hfirst hstep
    generalize run n = state at hcall hfirst hstep
    generalize hnext : run (n + 1) = state' at hcall hstep
    cases hstep with
    | call result => exact .inr ⟨n, _, _, _, hfirst.symm, congrArg Prod.fst hnext⟩
    | others step => exact absurd ⟨rfl, step⟩ hcall
  · exact .inl fun n => not_not.mp fun hcall => hcalls ⟨n, hcall⟩

/-- A program makes finitely many calls, also in a run that never ends. -/
theorem exists_others_from {run : Nat → Program Answer α × World}
    (hrun : ∀ n, Step setting (run n) (run (n + 1))) :
    ∃ start, ∀ n ≥ start, (run (n + 1)).1 = (run n).1 ∧
      setting.others (run n).2 (run (n + 1)).2 := by
  generalize hprogram : (run 0).1 = program
  induction program generalizing run with
  | done value =>
      rcases never_calls_or_calls hrun with hothers | ⟨_, _, _, _, hcall, _⟩
      · exact ⟨0, fun n _ => hothers n⟩
      · rw [hprogram] at hcall
        cases hcall
  | call request next ih =>
      rcases never_calls_or_calls hrun with hothers | ⟨n, _, _, answer, hcall, hnext⟩
      · exact ⟨0, fun n _ => hothers n⟩
      · rw [hprogram] at hcall
        cases hcall
        obtain ⟨start, hstart⟩ := ih answer (fun m => hrun (n + 1 + m)) hnext
        refine ⟨n + 1 + start, ?_⟩
        intro m hm
        obtain ⟨later, rfl⟩ := Nat.exists_eq_add_of_le hm
        have hothers := hstart (start + later) (Nat.le_add_right _ _)
        rw [Nat.add_assoc (n + 1)]
        exact hothers

end Program

end MiniRedis.Data
