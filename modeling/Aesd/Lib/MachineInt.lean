import Mathlib.Algebra.Ring.Int.Defs
import Mathlib.Algebra.Ring.Nat

namespace Aesd.Lib.MachineInt

def sizeT (n : Nat) : Nat := n % 2 ^ 64

/-- Signed 64-bit arithmetic that wraps, as `loff_t` has it in the kernel. -/
def loffT (z : Int) : Int := z.bmod (2 ^ 64)

def toSizeT (z : Int) : Nat := (z % 2 ^ 64).toNat

theorem sizeT_of_lt {n : Nat} (h : n < 2 ^ 64) : sizeT n = n := Nat.mod_eq_of_lt h

theorem loffT_of_lt {z : Int} (h0 : 0 ≤ z) (h : z < 2 ^ 63) : loffT z = z := by
  have hm : ((2 ^ 64 : Nat) : Int) = 18446744073709551616 := rfl
  exact Int.bmod_eq_of_le (by rw [hm]; omega) (by rw [hm]; omega)

theorem toSizeT_natCast {n : Nat} (h : n < 2 ^ 64) : toSizeT (n : Int) = n := by
  unfold toSizeT
  omega

theorem toSizeT_loffT (z : Int) : toSizeT (loffT z) = toSizeT z := by
  have h : z.bmod (2 ^ 64) % ((2 ^ 64 : Nat) : Int) = z % ((2 ^ 64 : Nat) : Int) := Int.bmod_emod
  exact congrArg Int.toNat h

theorem toSizeT_add {z : Int} {n : Nat} (h : toSizeT z + n < 2 ^ 64) :
    toSizeT (z + n) = toSizeT z + n := by
  unfold toSizeT at h ⊢
  omega

end Aesd.Lib.MachineInt
