/-
The arithmetic of the small allocations: what is left of the current
block, in the pool's own numbers.

`entry_byte_remain` is not what is left. The padding in front of an
object is taken off twice, the padding behind it once although it is not
needed, and clearing the pool does not give anything back; all of that
errs on the safe side. It may also go below zero, by less than a block
and its alignment, and is then a large unsigned number that reads as
negative. `Room` is what stays true of it, and `Room.fit` what the one
check of the code makes of that.
-/
import Mathlib.Tactic.Ring
import UdeBench.Lib.Bits
import UdeBench.Npr.Mempool

namespace UdeBench.Npr

open Bits

-- ============================================================= alignment

/-- An address rounded up to an alignment moves by less than it, also
across the end of the address space. -/
theorem ptrDiff_lt (ptr : Word) {k : Nat} (hk : k < 32) :
    (((ptr + ((1#32 <<< k) - 1)) &&& ~~~((1#32 <<< k) - 1)) - ptr).toNat
      < 2 ^ k := by
  have hpos := Nat.two_pow_pos k
  have hlt := ptr.isLt
  -- the address space is a whole number of aligned pieces
  obtain ⟨b, hb⟩ : ∃ b, 2 ^ 32 = 2 ^ k * b :=
    ⟨2 ^ (32 - k), by rw [← pow_add]; congr 1; omega⟩
  have hdiv := Nat.div_add_mod ptr.toNat (2 ^ k)
  have hmod := Nat.mod_lt ptr.toNat hpos
  have hu : ptr.toNat / 2 ^ k + 1 ≤ b := by
    apply Nat.succ_le_of_lt
    rw [Nat.div_lt_iff_lt_mul hpos, Nat.mul_comm, ← hb]
    exact hlt
  have hstep : 2 ^ k * (ptr.toNat / 2 ^ k + 1) ≤ 2 ^ k * b :=
    Nat.mul_le_mul_left _ hu
  -- a whole number of pieces and less than one more, in whole pieces
  have hwhole : ∀ m r, r < 2 ^ k → (2 ^ k * m + r) / 2 ^ k * 2 ^ k
      = 2 ^ k * m := by
    intro m r hr
    rw [Nat.mul_add_div hpos, Nat.div_eq_of_lt hr, Nat.add_zero, Nat.mul_comm]
  rw [BitVec.toNat_sub, and_alignMask _ hk, BitVec.toNat_add,
    align_sub_one hk]
  rw [Nat.mul_succ] at hstep
  rcases Nat.eq_zero_or_pos (ptr.toNat % 2 ^ k) with hv | hv
  · have hsum : (ptr.toNat + (2 ^ k - 1)) % 2 ^ 32
        = 2 ^ k * (ptr.toNat / 2 ^ k) + (2 ^ k - 1) := by
      rw [Nat.mod_eq_of_lt (by omega)]
      omega
    rw [hsum, hwhole _ _ (by omega)]
    omega
  · rcases Nat.lt_or_eq_of_le hu with hlt' | heq
    · have hnext : 2 ^ k * (ptr.toNat / 2 ^ k + 1 + 1) ≤ 2 ^ k * b :=
        Nat.mul_le_mul_left _ hlt'
      rw [Nat.mul_succ, Nat.mul_succ] at hnext
      have hsum : (ptr.toNat + (2 ^ k - 1)) % 2 ^ 32
          = 2 ^ k * (ptr.toNat / 2 ^ k + 1) + (ptr.toNat % 2 ^ k - 1) := by
        rw [Nat.mod_eq_of_lt (by omega), Nat.mul_succ]
        omega
      rw [hsum, hwhole _ _ (by omega), Nat.mul_succ]
      omega
    · -- the last piece: rounding up wraps to zero
      have hend : 2 ^ k * (ptr.toNat / 2 ^ k) + 2 ^ k = 2 ^ 32 := by
        rw [hb, ← heq, Nat.mul_succ]
      have hsum : (ptr.toNat + (2 ^ k - 1)) % 2 ^ 32
          = 2 ^ k * 0 + (ptr.toNat % 2 ^ k - 1) := by
        omega
      rw [hsum, hwhole _ _ (by omega)]
      omega

/-- A small size rounded up to an alignment. -/
theorem alignedSize_bounds {size : Word} {k : Nat} (hk : k ≤ 20)
    (hsize : size.toNat < 1024) :
    size.toNat ≤ ((size + ((1#32 <<< k) - 1))
        &&& ~~~((1#32 <<< k) - 1)).toNat
      ∧ ((size + ((1#32 <<< k) - 1)) &&& ~~~((1#32 <<< k) - 1)).toNat
        < size.toNat + 2 ^ k := by
  have hpos := Nat.two_pow_pos k
  have hpow : 2 ^ k ≤ 2 ^ 20 := Nat.pow_le_pow_right (by decide) hk
  have hsum : (size + ((1#32 <<< k) - 1)).toNat
      = size.toNat + (2 ^ k - 1) := by
    rw [BitVec.toNat_add, align_sub_one (by omega)]
    exact Nat.mod_eq_of_lt (by omega)
  have hdiv := Nat.div_add_mod (size.toNat + (2 ^ k - 1)) (2 ^ k)
  have hmod := Nat.mod_lt (size.toNat + (2 ^ k - 1)) hpos
  rw [and_alignMask _ (by omega), hsum, Nat.mul_comm]
  omega

-- ================================================================= room

/-- A word read as signed. -/
theorem signed (x : Word) :
    (x.toInt = x.toNat ∧ x.toNat < 2 ^ 31)
      ∨ (x.toInt = (x.toNat : Int) - 2 ^ 32 ∧ 2 ^ 31 ≤ x.toNat) := by
  have hint := BitVec.toInt_eq_toNat_cond x
  by_cases h : 2 * x.toNat < 2 ^ 32
  · rw [if_pos h] at hint
    omega
  · rw [if_neg h] at hint
    omega

/-- What the pool's numbers say of a current block of `size` bytes: it is
untouched, or no more than `remain` of it is promised. -/
def Room (remain pos size : Word) : Prop :=
  (pos = 0#32 ∧ remain = size)
    ∨ (remain.toInt + pos.toNat ≤ size.toNat ∧ -2 ^ 22 ≤ remain.toInt
      ∧ size.toNat < 2 ^ 31 + 2 ^ 20)

/-- Where the check of the code lets an object in, it fits, and what is
left is room again. -/
theorem Room.fit {remain pos block d size alignedSize : Word}
    (h : Room remain pos block) (hd : d.toNat < 2 ^ 20)
    (hsize : size.toNat < 1024) (hle : size.toNat ≤ alignedSize.toNat)
    (hlt : alignedSize.toNat < size.toNat + 2 ^ 20)
    (hfit : (remain - d).slt size = false) :
    pos.toNat + d.toNat + size.toNat ≤ block.toNat
      ∧ (pos + (d + alignedSize)).toNat
        = pos.toNat + d.toNat + alignedSize.toNat
      ∧ Room (remain - d - (d + alignedSize)) (pos + (d + alignedSize))
          block := by
  have hr := remain.isLt
  have hp := pos.isLt
  have hb := block.isLt
  have hsigned := signed (remain - d)
  have hsigned' := signed size
  have hremain :
      (remain - d).toNat = (2 ^ 32 - d.toNat + remain.toNat) % 2 ^ 32 :=
    BitVec.toNat_sub _ _
  have hroom : size.toInt ≤ (remain - d).toInt := by
    simpa [BitVec.slt] using hfit
  have hpos : (pos + (d + alignedSize)).toNat
      = (pos.toNat + (d.toNat + alignedSize.toNat)) % 2 ^ 32 := by
    rw [BitVec.toNat_add, BitVec.toNat_add]
    omega
  have hleft : (remain - d - (d + alignedSize)).toNat
      = (2 * 2 ^ 32 + remain.toNat - d.toNat - (d.toNat + alignedSize.toNat))
        % 2 ^ 32 := by
    rw [BitVec.toNat_sub, BitVec.toNat_sub, BitVec.toNat_add]
    omega
  have hsleft := signed (remain - d - (d + alignedSize))
  rcases h with ⟨rfl, rfl⟩ | ⟨hsum, hlow, hbig⟩
  · have h0 : (0#32).toNat = 0 := rfl
    refine ⟨by omega, by omega, .inr ⟨by omega, by omega, by omega⟩⟩
  · have hsr := signed remain
    refine ⟨by omega, by omega, .inr ⟨by omega, by omega, by omega⟩⟩

end UdeBench.Npr
