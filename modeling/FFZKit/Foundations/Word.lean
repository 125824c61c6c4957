import Mathlib.Algebra.Group.Nat.Defs
import Mathlib.Algebra.Order.Ring.Nat

/-!
# Machine words as natural numbers

The operations of an unsigned 64 bit integer wrap around. Each agrees with the
operation on natural numbers as long as the result is in range.
-/

namespace FFZKit.Foundations

def add64 (a b : Nat) : Nat := (a + b) % 2 ^ 64

def sub64 (a b : Nat) : Nat := (a + (2 ^ 64 - b)) % 2 ^ 64

def mul64 (a b : Nat) : Nat := a * b % 2 ^ 64

/-- The value of an unsigned integer as an `int`. -/
def toInt32 (n : Nat) : Int := (BitVec.ofNat 32 n).toInt

variable {a b : Nat}

theorem add64_of_lt (h : a + b < 2 ^ 64) : add64 a b = a + b := Nat.mod_eq_of_lt h

/-- A subtraction that does not underflow. -/
theorem sub64_of_le (hle : b ≤ a) (ha : a < 2 ^ 64) : sub64 a b = a - b := by
  have hshift : a + (2 ^ 64 - b) = (a - b) + 2 ^ 64 := by omega
  rw [sub64, hshift, Nat.add_mod_right, Nat.mod_eq_of_lt (by omega)]

theorem mul64_of_lt (h : a * b < 2 ^ 64) : mul64 a b = a * b := Nat.mod_eq_of_lt h

theorem toInt32_of_lt {n : Nat} (hn : n < 2 ^ 31) : toInt32 n = n := by
  rw [toInt32, BitVec.toInt_eq_toNat_cond, BitVec.toNat_ofNat]
  omega

end FFZKit.Foundations
