import Mathlib.Logic.Basic

namespace MiniRedis.Data

/-! Loops that give up after a number of passes. -/

section Passes

variable {σ ρ : Type} {next : σ → Option (ρ ⊕ σ)} {fuel fuel' : Nat} {s : σ}

/-- A pass fails, returns a result or leads to the next one. -/
def loop (next : σ → Option (ρ ⊕ σ)) : Nat → σ → Option ρ
  | 0, _ => none
  | fuel + 1, s =>
      (next s).bind fun
        | .inl result => some result
        | .inr s => loop next fuel s

theorem loop_mono {result : ρ} (h : loop next fuel s = some result)
    (hle : fuel ≤ fuel') : loop next fuel' s = some result := by
  induction fuel generalizing fuel' s with
  | zero => cases h
  | succ fuel ih =>
      obtain ⟨fuel', rfl⟩ : ∃ rest, fuel' = rest + 1 := ⟨fuel' - 1, by omega⟩
      obtain ⟨pass, hnext, hpass⟩ := Option.bind_eq_some_iff.mp h
      rw [loop, hnext]
      cases pass with
      | inl value => exact hpass
      | inr s' => exact ih hpass (Nat.le_of_succ_le_succ hle)

/-- More passes than are `left` change nothing. -/
theorem loop_eq_of_left (left : Nat → σ → Prop)
    (hnext : ∀ n s s', left n s → next s = some (.inr s') → ∃ m < n, left m s')
    {n : Nat} (h : left n s) (hfuel : n < fuel) (hfuel' : n < fuel') :
    loop next fuel s = loop next fuel' s := by
  induction fuel generalizing fuel' s n with
  | zero => omega
  | succ fuel ih =>
      obtain ⟨fuel', rfl⟩ : ∃ rest, fuel' = rest + 1 := ⟨fuel' - 1, by omega⟩
      rw [loop, loop]
      cases hpass : next s with
      | none => rfl
      | some pass =>
          cases pass with
          | inl value => rfl
          | inr s' =>
              obtain ⟨m, hless, hleft⟩ := hnext n s s' h hpass
              exact ih hleft (by omega) (by omega)

end Passes

end MiniRedis.Data
