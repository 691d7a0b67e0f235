/-
A 32-bit `int` where a 64-bit `size_t` is expected: it is extended by its
sign. A number below 2^31 stays itself, any other one becomes a size in
the upper half of the address space.
-/
import Mathlib.Tactic.Ring

namespace UdeBench.Ints

variable {x y : BitVec 32}

/-- A number that is not negative. -/
theorem msb_of_lt (h : x.toNat < 2 ^ 31) : x.msb = false := by
  rw [BitVec.msb_eq_decide]
  exact decide_eq_false (by omega)

theorem msb_of_le (h : 2 ^ 31 ≤ x.toNat) : x.msb = true := by
  rw [BitVec.msb_eq_decide]
  exact decide_eq_true (by omega)

theorem toInt_of_lt (h : x.toNat < 2 ^ 31) : x.toInt = x.toNat :=
  BitVec.toInt_eq_toNat_of_msb (msb_of_lt h)

theorem toInt_of_le (h : 2 ^ 31 ≤ x.toNat) : x.toInt = x.toNat - 2 ^ 32 := by
  rw [BitVec.toInt_eq_toNat_cond, if_neg (by omega)]
  rfl

/-- It stays itself. -/
theorem toNat_size (h : x.toNat < 2 ^ 31) :
    (x.signExtend 64).toNat = x.toNat := by
  rw [BitVec.signExtend_eq_setWidth_of_msb_false (msb_of_lt h),
    BitVec.toNat_setWidth]
  exact Nat.mod_eq_of_lt (by omega)

/-- A negative number becomes a size that no object has. -/
theorem toNat_size_neg (h : 2 ^ 31 ≤ x.toNat) :
    (x.signExtend 64).toNat = 2 ^ 64 - 2 ^ 32 + x.toNat := by
  have hlt := x.isLt
  rw [BitVec.toNat_signExtend, msb_of_le h, BitVec.toNat_setWidth,
    Nat.mod_eq_of_lt (by omega)]
  simp only [if_true]
  omega

/-- The product of two numbers, as far as it is an `int`. -/
theorem toNat_mul (h : x.toNat * y.toNat < 2 ^ 32) :
    (x * y).toNat = x.toNat * y.toNat := by
  rw [BitVec.toNat_mul]
  exact Nat.mod_eq_of_lt h

theorem toNat_add (h : x.toNat + y.toNat < 2 ^ 32) :
    (x + y).toNat = x.toNat + y.toNat := by
  rw [BitVec.toNat_add]
  exact Nat.mod_eq_of_lt h

theorem toNat_sub (h : y.toNat ≤ x.toNat) :
    (x - y).toNat = x.toNat - y.toNat :=
  BitVec.toNat_sub_of_le h

/-- Comparison of `int`s. -/
theorem slt_iff (hx : x.toNat < 2 ^ 31) (hy : y.toNat < 2 ^ 31) :
    x.slt y = true ↔ x.toNat < y.toNat := by
  rw [BitVec.slt_iff_toInt_lt, toInt_of_lt hx, toInt_of_lt hy]
  exact Int.ofNat_lt

end UdeBench.Ints
