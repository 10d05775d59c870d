import Mathlib.Data.List.Lex
import Mathlib.Data.Prod.Lex
import Mathlib.Tactic.Tauto

namespace MiniRedis

/-! Byte strings, their hash and their order. -/

abbrev Bytes := List UInt8

/-- `str_hash`: 32-bit arithmetic, widened at the end. -/
def strHash (data : Bytes) : UInt64 :=
  (data.foldl (fun h byte => (h + byte.toUInt32) * 0x01000193)
    (0x811C9DC5 : UInt32)).toUInt64

/-- The sign of `memcmp` over the first `n` bytes of both strings. -/
def memcmp : Nat → Bytes → Bytes → Ordering
  | n + 1, a :: first, b :: second =>
      if a.toNat < b.toNat then .lt
      else if b.toNat < a.toNat then .gt
      else memcmp n first second
  | _, _, _ => .eq

def byteOrder (name : Bytes) : List Nat := name.map UInt8.toNat

theorem byteOrder_injective : Function.Injective byteOrder := by
  apply List.map_injective_iff.mpr
  intro a b h
  exact UInt8.toNat_inj.mp h

theorem memcmp_lt_iff (first second : Bytes) :
    (memcmp (min first.length second.length) first second = .lt ∨
      memcmp (min first.length second.length) first second = .eq ∧
        first.length < second.length) ↔
      byteOrder first < byteOrder second := by
  induction first generalizing second with
  | nil =>
      cases second with
      | nil => simp [memcmp, byteOrder]
      | cons b second => simp [memcmp, byteOrder]
  | cons a first ih =>
      cases second with
      | nil => simp [memcmp, byteOrder]
      | cons b second =>
          have hrest := ih second
          simp only [byteOrder] at hrest
          simp only [byteOrder, List.map_cons, List.cons_lt_cons_iff,
            List.length_cons, Nat.add_lt_add_iff_right, Nat.add_min_add_right,
            memcmp]
          rw [← hrest]
          by_cases hlt : a.toNat < b.toNat
          · simp [hlt]
          · by_cases hgt : b.toNat < a.toNat
            · simp [hlt, hgt, Nat.ne_of_gt hgt]
            · have heq : a.toNat = b.toNat := by omega
              simp [heq]

theorem memcmp_eq_iff {first second : Bytes}
    (hlength : first.length = second.length) :
    memcmp first.length first second = .eq ↔ first = second := by
  induction first generalizing second with
  | nil => simp_all [memcmp, eq_comm]
  | cons a first ih =>
      cases second with
      | nil => simp at hlength
      | cons b second =>
          have hrest : memcmp first.length first second = .eq ↔
              first = second := ih (by simpa using hlength)
          simp only [List.length_cons, memcmp, List.cons.injEq]
          by_cases hlt : a.toNat < b.toNat
          · have hne : a ≠ b := by
              rintro rfl
              exact Nat.lt_irrefl _ hlt
            simp [hlt, hne]
          · by_cases hgt : b.toNat < a.toNat
            · have hne : a ≠ b := by
                rintro rfl
                exact Nat.lt_irrefl _ hgt
              simp [hlt, hgt, hne]
            · have heq : a = b := UInt8.toNat_inj.mp (by omega)
              simp [heq, hrest]

end MiniRedis
