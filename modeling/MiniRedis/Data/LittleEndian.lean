import Mathlib.Data.UInt
import Mathlib.Tactic.Ring
import Mathlib.Tactic.NormNum

namespace MiniRedis.Data

/-! Fixed-width little-endian integers over byte lists. -/

def leBytes : Nat → Nat → List UInt8
  | 0, _ => []
  | width + 1, value => UInt8.ofNat value :: leBytes width (value / 256)

def leValue : List UInt8 → Nat
  | [] => 0
  | byte :: rest => byte.toNat + 256 * leValue rest

@[simp] theorem length_leBytes (width value : Nat) :
    (leBytes width value).length = width := by
  induction width generalizing value with
  | zero => rfl
  | succ width ih => simp [leBytes, ih]

theorem leValue_lt (bytes : List UInt8) :
    leValue bytes < 256 ^ bytes.length := by
  induction bytes with
  | nil => simp [leValue]
  | cons byte rest ih =>
      have hbyte : byte.toNat < 256 := byte.toNat_lt
      simp only [leValue, List.length_cons, pow_succ]
      omega

theorem leValue_leBytes (width value : Nat) :
    leValue (leBytes width value) = value % 256 ^ width := by
  induction width generalizing value with
  | zero => simp [leBytes, leValue, Nat.mod_one]
  | succ width ih =>
      have hhead : (UInt8.ofNat value).toNat = value % 256 := by simp
      rw [leBytes, leValue, ih, hhead, pow_succ', Nat.mod_mul]

theorem leValue_leBytes_of_lt {width value : Nat} (h : value < 256 ^ width) :
    leValue (leBytes width value) = value := by
  rw [leValue_leBytes, Nat.mod_eq_of_lt h]

theorem leBytes_leValue (bytes : List UInt8) :
    leBytes bytes.length (leValue bytes) = bytes := by
  induction bytes with
  | nil => rfl
  | cons byte rest ih =>
      have hbyte : byte.toNat < 256 := byte.toNat_lt
      have hhead : UInt8.ofNat (byte.toNat + 256 * leValue rest) = byte := by
        apply UInt8.toNat_inj.mp
        simp only [UInt8.toNat_ofNat']
        omega
      have htail : (byte.toNat + 256 * leValue rest) / 256 = leValue rest := by
        omega
      simp only [leValue, List.length_cons, leBytes]
      rw [hhead, htail, ih]

theorem leBytes_leValue_of_length {width : Nat} {bytes : List UInt8}
    (h : bytes.length = width) : leBytes width (leValue bytes) = bytes := by
  subst h
  exact leBytes_leValue bytes

theorem leBytes_mod (width value : Nat) :
    leBytes width (value % 256 ^ width) = leBytes width value := by
  rw [← leValue_leBytes]
  exact leBytes_leValue_of_length (length_leBytes width value)

theorem exists_leBytes {width : Nat} {bytes : List UInt8}
    (h : width ≤ bytes.length) :
    ∃ value rest, value < 256 ^ width ∧ bytes = leBytes width value ++ rest := by
  have hfield : (bytes.take width).length = width := List.length_take_of_le h
  have hlt := leValue_lt (bytes.take width)
  rw [hfield] at hlt
  refine ⟨leValue (bytes.take width), bytes.drop width, hlt, ?_⟩
  rw [leBytes_leValue_of_length hfield, List.take_append_drop]

theorem leBytes_append_inj {width value other : Nat} {rest rest' : List UInt8}
    (hvalue : value < 256 ^ width) (hother : other < 256 ^ width)
    (h : leBytes width value ++ rest = leBytes width other ++ rest') :
    value = other ∧ rest = rest' := by
  obtain ⟨hfield, hrest⟩ := List.append_inj h (by simp)
  refine ⟨?_, hrest⟩
  rw [← leValue_leBytes_of_lt hvalue, hfield, leValue_leBytes_of_lt hother]

end MiniRedis.Data
