import Mathlib.Data.Int.Basic
import Mathlib.Algebra.Group.Nat.Defs
import Mathlib.Order.Basic

namespace MiniRedis.Data

/-! IEEE double patterns and their comparisons. -/

structure Double where
  bits : UInt64 := 0
deriving DecidableEq, Repr

namespace Double

def magnitude (value : Double) : Nat := value.bits.toNat % 2 ^ 63

def isNaN (value : Double) : Bool := 0x7FF0000000000000 < value.magnitude

/-- The order of the values: the two zeros share a key. -/
def key (value : Double) : Int :=
  if value.bits.toNat < 2 ^ 63 then value.magnitude else -value.magnitude

def ieeeEq (first second : Double) : Bool :=
  !first.isNaN && !second.isNaN && first.key == second.key

def ieeeLt (first second : Double) : Bool :=
  !first.isNaN && !second.isNaN && decide (first.key < second.key)

variable {first second : Double}

theorem ieeeEq_iff (hfirst : first.isNaN = false)
    (hsecond : second.isNaN = false) :
    first.ieeeEq second = true ↔ first.key = second.key := by
  simp [ieeeEq, hfirst, hsecond]

theorem ieeeLt_iff (hfirst : first.isNaN = false)
    (hsecond : second.isNaN = false) :
    first.ieeeLt second = true ↔ first.key < second.key := by
  simp [ieeeLt, hfirst, hsecond]

end Double

end MiniRedis.Data
