import Mathlib.Data.List.Nodup
import Mathlib.Logic.Function.Basic

namespace MiniRedis.Data

/-! Resources that have one owner each. -/

variable {ρ ω : Type} {taken : List ρ} {owner : ω → Option ρ} {r : ρ} {o o' : ω}

/-- What is taken is what somebody owns, and nobody shares. -/
structure Exclusive (taken : List ρ) (owner : ω → Option ρ) : Prop where
  nodup : taken.Nodup
  mem : ∀ r, r ∈ taken ↔ ∃ o, owner o = some r
  unique : ∀ o o' r, owner o = some r → owner o' = some r → o = o'

namespace Exclusive

theorem empty : Exclusive ([] : List ρ) fun _ : ω => none :=
  ⟨.nil, by simp, by simp⟩

theorem eq_nil (h : Exclusive taken owner) (hnone : ∀ o, owner o = none) :
    taken = [] := by
  refine List.eq_nil_iff_forall_not_mem.mpr ?_
  intro r hmem
  obtain ⟨o, howns⟩ := (h.mem r).mp hmem
  rw [hnone o] at howns
  cases howns

variable [DecidableEq ω]

theorem take (h : Exclusive taken owner) (hfree : owner o = none)
    (hnew : r ∉ taken) :
    Exclusive (r :: taken) (Function.update owner o (some r)) := by
  have hmine : ∀ other, owner other ≠ some r := fun other howns =>
    hnew ((h.mem r).mpr ⟨other, howns⟩)
  refine ⟨List.nodup_cons.mpr ⟨hnew, h.nodup⟩, ?_, ?_⟩
  · intro q
    rw [List.mem_cons, h.mem q]
    constructor
    · rintro (rfl | ⟨other, howns⟩)
      · exact ⟨o, Function.update_self _ _ _⟩
      · have hne : other ≠ o := by
          rintro rfl
          rw [hfree] at howns
          cases howns
        exact ⟨other, (Function.update_of_ne hne _ _).trans howns⟩
    · rintro ⟨other, howns⟩
      by_cases heq : other = o
      · rw [heq, Function.update_self] at howns
        cases howns
        exact .inl rfl
      · rw [Function.update_of_ne heq] at howns
        exact .inr ⟨other, howns⟩
  · intro first second q hfirst hsecond
    by_cases heq : first = o
    · by_cases heq' : second = o
      · rw [heq, heq']
      · rw [heq, Function.update_self] at hfirst
        cases hfirst
        rw [Function.update_of_ne heq'] at hsecond
        exact absurd hsecond (hmine second)
    · rw [Function.update_of_ne heq] at hfirst
      by_cases heq' : second = o
      · rw [heq', Function.update_self] at hsecond
        cases hsecond
        exact absurd hfirst (hmine first)
      · rw [Function.update_of_ne heq'] at hsecond
        exact h.unique first second q hfirst hsecond

variable [DecidableEq ρ]

theorem drop (h : Exclusive taken owner) (howns : owner o = some r) :
    Exclusive (taken.erase r) (Function.update owner o none) := by
  have hkept : ∀ other q, Function.update owner o none other = some q ↔
      other ≠ o ∧ owner other = some q := by
    intro other q
    by_cases heq : other = o
    · rw [heq, Function.update_self]
      simp
    · rw [Function.update_of_ne heq]
      exact ⟨fun hother => ⟨heq, hother⟩, And.right⟩
  refine ⟨h.nodup.erase r, ?_, ?_⟩
  · intro q
    rw [h.nodup.mem_erase_iff, h.mem q]
    constructor
    · rintro ⟨hne, other, hother⟩
      refine ⟨other, (hkept other q).mpr ⟨?_, hother⟩⟩
      rintro rfl
      rw [howns] at hother
      cases hother
      exact hne rfl
    · rintro ⟨other, hother⟩
      obtain ⟨hne, hother⟩ := (hkept other q).mp hother
      refine ⟨?_, other, hother⟩
      rintro rfl
      exact hne (h.unique other o q hother howns)
  · intro first second q hfirst hsecond
    exact h.unique first second q ((hkept first q).mp hfirst).2
      ((hkept second q).mp hsecond).2

theorem pass (h : Exclusive taken owner) (hfree : owner o' = none) :
    Exclusive taken
      (Function.update (Function.update owner o none) o' (owner o)) := by
  cases howns : owner o with
  | none =>
      have hsame : Function.update (Function.update owner o none) o' none = owner := by
        rw [← howns, Function.update_eq_self, howns, ← hfree,
          Function.update_eq_self]
      rw [hsame]
      exact h
  | some r =>
      have hout := h.drop howns
      have hnew : r ∉ taken.erase r := fun hmem =>
        (h.nodup.mem_erase_iff.mp hmem).1 rfl
      have hfree' : Function.update owner o none o' = none := by
        by_cases heq : o' = o
        · rw [heq, Function.update_self]
        · rw [Function.update_of_ne heq, hfree]
      have hback := hout.take hfree' hnew
      have hperm : (r :: taken.erase r).Perm taken :=
        (List.perm_cons_erase ((h.mem r).mpr ⟨o, howns⟩)).symm
      exact ⟨h.nodup, fun q => hperm.mem_iff.symm.trans (hback.mem q), hback.unique⟩

end Exclusive

end MiniRedis.Data
