import Mathlib.Data.Int.Basic
import Mathlib.Tactic.NormNum

namespace MiniRedis.Data

/-! The 64-bit integers of the target: unsigned arithmetic wraps, a signed
result outside the range is an overflow. -/

def int64Max : Int := 2 ^ 63 - 1

def int64Min : Int := -2 ^ 63

def checkedInt64 (value : Int) : Option Int :=
  if int64Min ≤ value ∧ value ≤ int64Max then some value else none

def int32Max : Int := 2 ^ 31 - 1

def int32Min : Int := -2 ^ 31

def checkedInt32 (value : Int) : Option Int :=
  if int32Min ≤ value ∧ value ≤ int32Max then some value else none

def castInt32 (value : Nat) : Int :=
  if value % 2 ^ 32 < 2 ^ 31 then (value % 2 ^ 32 : Nat)
  else (value % 2 ^ 32 : Nat) - 2 ^ 32

def checkedUInt32 (value : Nat) : Option Nat :=
  if value < 2 ^ 32 then some value else none

def uint64Max : Nat := 2 ^ 64 - 1

def castInt64 (value : Nat) : Int :=
  if value % 2 ^ 64 < 2 ^ 63 then (value % 2 ^ 64 : Nat)
  else (value % 2 ^ 64 : Nat) - 2 ^ 64

def castUInt64 (value : Int) : Nat := (value % 2 ^ 64).toNat

def addUInt64 (first second : Nat) : Nat := (first + second) % 2 ^ 64

def subUInt64 (first second : Nat) : Nat :=
  if second ≤ first then first - second else 2 ^ 64 + first - second

theorem checkedInt64_eq_some {value : Int} (hlow : int64Min ≤ value)
    (hhigh : value ≤ int64Max) : checkedInt64 value = some value := by
  rw [checkedInt64, if_pos ⟨hlow, hhigh⟩]

theorem castInt32_pos {value : Nat} :
    0 < castInt32 value ↔ 0 < value % 2 ^ 32 ∧ value % 2 ^ 32 < 2 ^ 31 := by
  unfold castInt32
  omega

theorem castInt32_le (value : Nat) : castInt32 value ≤ value := by
  unfold castInt32
  omega

theorem castInt64_of_lt {value : Nat} (h : value < 2 ^ 63) :
    castInt64 value = value := by
  unfold castInt64
  norm_num at h ⊢
  omega

theorem castUInt64_of_nonneg {value : Int} (hlow : 0 ≤ value)
    (hhigh : value ≤ int64Max) : (castUInt64 value : Int) = value := by
  unfold castUInt64 int64Max at *
  omega

theorem castUInt64_lt (value : Int) : castUInt64 value < 2 ^ 64 := by
  unfold castUInt64
  omega

theorem castUInt64_inj {value other : Int} (hlow : int64Min ≤ value)
    (hhigh : value ≤ int64Max) (hlow' : int64Min ≤ other)
    (hhigh' : other ≤ int64Max) (h : castUInt64 value = castUInt64 other) :
    value = other := by
  unfold castUInt64 int64Min int64Max at *
  omega

theorem castUInt64_castInt64 {value : Nat} (h : value < 2 ^ 64) :
    castUInt64 (castInt64 value) = value := by
  unfold castUInt64 castInt64
  split <;> omega

theorem castInt64_range (value : Nat) :
    int64Min ≤ castInt64 value ∧ castInt64 value ≤ int64Max := by
  unfold castInt64 int64Min int64Max
  omega

end MiniRedis.Data
