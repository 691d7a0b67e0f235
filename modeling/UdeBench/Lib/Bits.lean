/-
Bit fields of a machine word: the window `bits w lo len` and how it
reads words built by shifting fields into place and ORing them.

An encoder writes `a <<< i ||| b <<< j ||| c`; an encoding diagram reads
windows. The lemmas below push a window through the ORs and the ANDs and
settle each shifted field on its own: a field below or above the window
contributes nothing, the field at the window comes back whole. With them
as simp lemmas a round trip closes by `simp`, one window at a time.

Nothing here knows an instruction set: width and positions are
parameters.
-/
import Mathlib.Tactic.Ring

namespace UdeBench.Bits

variable {n m : Nat}

/-- Bits `lo .. lo+len-1` of a word. -/
def bits (w : BitVec n) (lo len : Nat) : BitVec len := w.extractLsb' lo len

-- ============================================== windows of ORs and ANDs

@[simp] theorem bits_or (a b : BitVec n) (lo len : Nat) :
    bits (a ||| b) lo len = bits a lo len ||| bits b lo len := by
  unfold bits
  rw [BitVec.extractLsb'_or]

-- ================================================== one shifted field

/-- The field at the window is read back whole. -/
@[simp] theorem bits_shl_self (x : BitVec m) {k : Nat} (h : k + m ≤ n) :
    bits (x.setWidth n <<< k) k m = x := by
  unfold bits
  ext i hi
  simp only [BitVec.getElem_extractLsb', BitVec.getLsbD_shiftLeft,
    BitVec.getLsbD_setWidth, BitVec.getLsbD_eq_getElem hi,
    Nat.add_sub_cancel_left]
  simp only [show k + i < n by omega, show ¬ k + i < k by omega,
    show i < n by omega, decide_true, decide_false, Bool.not_false,
    Bool.true_and]

/-- A field that ends below the window contributes nothing. -/
@[simp] theorem bits_shl_low (x : BitVec m) {k lo len : Nat}
    (h : k + m ≤ lo) : bits (x.setWidth n <<< k) lo len = BitVec.ofNat len 0 := by
  unfold bits
  ext i hi
  have hx : x.getLsbD (lo + i - k) = false :=
    BitVec.getLsbD_of_ge x _ (by omega)
  simp [hx]

/-- A field that starts above the window contributes nothing. -/
@[simp] theorem bits_shl_high (y : BitVec n) {k lo len : Nat}
    (h : lo + len ≤ k) : bits (y <<< k) lo len = BitVec.ofNat len 0 := by
  unfold bits
  ext i hi
  have hk : lo + i < k := by omega
  simp [hk]

/-- An unshifted field read back at position 0. -/
@[simp] theorem bits_setWidth_self (x : BitVec m) (h : m ≤ n) :
    bits (x.setWidth n) 0 m = x := by
  have hs := bits_shl_self (n := n) x (k := 0) (by omega)
  simpa using hs

/-- An unshifted field contributes nothing above its width. -/
@[simp] theorem bits_setWidth_low (x : BitVec m) {lo len : Nat}
    (h : m ≤ lo) : bits (x.setWidth n) lo len = BitVec.ofNat len 0 := by
  have hs : bits (x.setWidth n <<< 0) lo len = BitVec.ofNat len 0 :=
    bits_shl_low x (by omega)
  simpa using hs

/-- Widening changes no window inside the new width. -/
theorem bits_setWidth (x : BitVec m) {lo len : Nat} (h : lo + len ≤ n) :
    bits (x.setWidth n) lo len = bits x lo len := by
  unfold bits
  ext i hi
  simp [show lo + i < n by omega]

/-- A window from the bottom narrows the widening. -/
theorem bits_setWidth_zero (x : BitVec m) {len : Nat} (hn : len ≤ n) :
    bits (x.setWidth n) 0 len = x.setWidth len := by
  unfold bits
  ext i hi
  simp only [BitVec.getElem_extractLsb', BitVec.getLsbD_setWidth,
    BitVec.getElem_setWidth, Nat.zero_add]
  simp only [show i < n by omega, decide_true, Bool.true_and]

/-- A window as a number. -/
theorem toNat_bits (x : BitVec m) (lo len : Nat) :
    (bits x lo len).toNat = x.toNat / 2 ^ lo % 2 ^ len := by
  unfold bits
  rw [BitVec.extractLsb'_toNat, Nat.shiftRight_eq_div_pow]

/-- A window of a constant is a constant. -/
@[simp] theorem bits_ofNat (c lo len : Nat) :
    bits (BitVec.ofNat n c) lo len
      = BitVec.ofNat len (c % 2 ^ n / 2 ^ lo) := by
  apply BitVec.eq_of_toNat_eq
  rw [toNat_bits, BitVec.toNat_ofNat, BitVec.toNat_ofNat]

-- ================================================================= masks

/-- A mask of high bits keeps a field shifted past its low end. -/
theorem shl_and_mask (y : BitVec n) {k m : Nat} (h : m ≤ k) :
    (y <<< k) &&& (BitVec.allOnes n <<< m) = y <<< k := by
  ext i hi
  by_cases hik : i < k
  · simp [hik]
  · have him : ¬ i < m := by omega
    simp [hik, him]

/-- A mask of low bits is the remainder. -/
theorem toNat_and_mask (y : BitVec n) {k : Nat} (h : k ≤ n) :
    (y &&& BitVec.ofNat n (2 ^ k - 1)).toNat = y.toNat % 2 ^ k := by
  have hlt : 2 ^ k - 1 < 2 ^ n := by
    have hpow := Nat.pow_le_pow_right (n := 2) (by decide) h
    have hpos := Nat.two_pow_pos k
    omega
  rw [BitVec.toNat_and, BitVec.toNat_ofNat, Nat.mod_eq_of_lt hlt,
    Nat.and_two_pow_sub_one_eq_mod]

/-- A mask of low bits is truncation. -/
theorem and_mask_eq_setWidth (y : BitVec n) {k : Nat} (h : k ≤ n) :
    y &&& BitVec.ofNat n (2 ^ k - 1) = (y.setWidth k).setWidth n := by
  apply BitVec.eq_of_toNat_eq
  have hpow := Nat.pow_le_pow_right (n := 2) (by decide) h
  have hlt := Nat.mod_lt y.toNat (Nat.two_pow_pos k)
  rw [toNat_and_mask y h, BitVec.toNat_setWidth, BitVec.toNat_setWidth]
  exact (Nat.mod_eq_of_lt (by omega)).symm

/-- ORing in one bit of a word changes nothing where that bit is clear
or was set. -/
theorem or_and_twoPow_eq_iff (a x : BitVec n) {k : Nat} (hk : k < n) :
    a ||| (x &&& BitVec.twoPow n k) = a
      ↔ (x.getLsbD k = true → a.getLsbD k = true) := by
  rw [BitVec.and_twoPow]
  cases hx : x.getLsbD k with
  | false => simp
  | true =>
      simp only [if_true, forall_const]
      constructor
      · intro h
        rw [← h, BitVec.getLsbD_or, BitVec.getLsbD_twoPow]
        simp [hk]
      · intro h
        apply BitVec.eq_of_getLsbD_eq
        intro i _
        rw [BitVec.getLsbD_or, BitVec.getLsbD_twoPow]
        by_cases hi : k = i
        · subst hi
          simp [h]
        · simp [hi]

/-- One bit of a word as a number. -/
theorem getLsbD_eq_true_iff (x : BitVec n) (k : Nat) :
    x.getLsbD k = true ↔ x.toNat / 2 ^ k % 2 = 1 := by
  rw [BitVec.getLsbD, Nat.testBit_eq_decide_div_mod_eq, decide_eq_true_eq]

-- ====================================================== fields apart

/-- A field in its place shares no bit with a word whose window there is
zero. -/
theorem and_shl_eq_zero {w : BitVec n} {x : BitVec m} {k : Nat}
    (h : bits w k m = BitVec.ofNat m 0) :
    w &&& (x.setWidth n <<< k) = BitVec.ofNat n 0 := by
  ext i hi
  simp only [BitVec.getElem_and, BitVec.getElem_shiftLeft,
    BitVec.getElem_setWidth, BitVec.getElem_zero]
  by_cases hik : i < k
  · simp [hik]
  · by_cases him : i - k < m
    · have hbit : w[i] = false := by
        have hw := congrArg (fun y => BitVec.getLsbD y (i - k)) h
        simp only [bits, BitVec.getLsbD_extractLsb', him, decide_true,
          Bool.true_and, BitVec.getLsbD_zero] at hw
        rw [show k + (i - k) = i by omega, BitVec.getLsbD_eq_getElem hi] at hw
        exact hw
      rw [hbit, Bool.false_and]
    · have hx : x.getLsbD (i - k) = false := BitVec.getLsbD_of_ge x _ (by omega)
      simp [hx]

theorem and_setWidth_eq_zero {w : BitVec n} {x : BitVec m}
    (h : bits w 0 m = BitVec.ofNat m 0) :
    w &&& x.setWidth n = BitVec.ofNat n 0 := by
  have hshl := and_shl_eq_zero (x := x) h
  rwa [BitVec.shiftLeft_zero] at hshl

theorem shl_and_eq_zero {w : BitVec n} {x : BitVec m} {k : Nat}
    (h : bits w k m = BitVec.ofNat m 0) :
    (x.setWidth n <<< k) &&& w = BitVec.ofNat n 0 := by
  rw [BitVec.and_comm]
  exact and_shl_eq_zero h

-- ============================================================= alignment

/-- An alignment. -/
theorem toNat_align {k : Nat} (hk : k < n) :
    (BitVec.ofNat n 1 <<< k).toNat = 2 ^ k := by
  have hpow : 2 ^ k < 2 ^ n := Nat.pow_lt_pow_right (by decide) hk
  have hpos := Nat.two_pow_pos k
  rw [BitVec.toNat_shiftLeft, BitVec.toNat_ofNat,
    Nat.mod_eq_of_lt (show 1 < 2 ^ n by omega), Nat.shiftLeft_eq, Nat.one_mul]
  exact Nat.mod_eq_of_lt hpow

/-- An alignment less one. -/
theorem align_sub_one {k : Nat} (hk : k < n) :
    ((BitVec.ofNat n 1 <<< k) - 1).toNat = 2 ^ k - 1 := by
  have hpow : 2 ^ k < 2 ^ n := Nat.pow_lt_pow_right (by decide) hk
  have hpos := Nat.two_pow_pos k
  have h1 : (1 : BitVec n).toNat = 1 := by
    show 1 % 2 ^ n = 1
    exact Nat.mod_eq_of_lt (by omega)
  rw [BitVec.toNat_sub, h1, toNat_align hk,
    show 2 ^ n - 1 + 2 ^ k = 2 ^ n + (2 ^ k - 1) by omega,
    Nat.add_mod_left]
  exact Nat.mod_eq_of_lt (by omega)

/-- The mask of an alignment clears what is past a multiple of it. -/
theorem and_alignMask (x : BitVec n) {k : Nat} (hk : k < n) :
    (x &&& ~~~((BitVec.ofNat n 1 <<< k) - 1)).toNat
      = x.toNat / 2 ^ k * 2 ^ k := by
  have hmask : (BitVec.ofNat n 1 <<< k) - 1 = BitVec.ofNat n (2 ^ k - 1) := by
    apply BitVec.eq_of_toNat_eq
    have hlt := ((BitVec.ofNat n 1 <<< k) - 1).isLt
    rw [align_sub_one hk] at hlt
    rw [align_sub_one hk, BitVec.toNat_ofNat, Nat.mod_eq_of_lt hlt]
  have hlow : (x &&& ((BitVec.ofNat n 1 <<< k) - 1)).toNat
      = x.toNat % 2 ^ k := by
    rw [hmask]
    exact toNat_and_mask x (by omega)
  have hzero : (x &&& ((BitVec.ofNat n 1 <<< k) - 1))
      &&& (x &&& ~~~((BitVec.ofNat n 1 <<< k) - 1)) = BitVec.ofNat n 0 := by
    rw [BitVec.and_assoc, BitVec.and_comm x (~~~_), ← BitVec.and_assoc _ _ x,
      BitVec.and_not_self]
    simp
  have hall : (x &&& ((BitVec.ofNat n 1 <<< k) - 1))
      + (x &&& ~~~((BitVec.ofNat n 1 <<< k) - 1)) = x := by
    rw [BitVec.add_eq_or_of_and_eq_zero _ _ hzero,
      ← BitVec.and_or_distrib_left, BitVec.or_not_self, BitVec.and_allOnes]
  have hsum := BitVec.toNat_add_of_and_eq_zero hzero
  rw [hall, hlow] at hsum
  have hdiv := Nat.div_add_mod x.toNat (2 ^ k)
  rw [Nat.mul_comm] at hdiv
  omega

/-- A number rounded up to a multiple, where that does not wrap. -/
theorem roundUp_toNat (x : BitVec n) {k : Nat} (hk : k < n)
    (hx : x.toNat + (2 ^ k - 1) < 2 ^ n) :
    ((x + ((BitVec.ofNat n 1 <<< k) - 1))
        &&& ~~~((BitVec.ofNat n 1 <<< k) - 1)).toNat
      = (x.toNat + (2 ^ k - 1)) / 2 ^ k * 2 ^ k := by
  rw [and_alignMask _ hk, BitVec.toNat_add, align_sub_one hk,
    Nat.mod_eq_of_lt hx]

end UdeBench.Bits
