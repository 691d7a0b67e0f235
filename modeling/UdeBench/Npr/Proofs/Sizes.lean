/-
The arithmetic of npr/heap.c: allocation sizes, the test for a large
one, large regions and page offsets, for a page of `2 ^ k` bytes.
-/
import UdeBench.Lib.Bits
import UdeBench.Npr.Heap

namespace UdeBench.Npr.FirstFit

open Bits

/-- The page sizes an `int` holds, from 256 bytes on. -/
def PageShift (k : Nat) : Prop := 8 ≤ k ∧ k ≤ 30

/-- The page size, as the heap has it. -/
def pageOf (k : Nat) : Word := 1#32 <<< k

/-- `calc_alloc_size` rounds up `n + 4` to a multiple of 8. -/
theorem toNat_calcAllocSize {n : Size} (hn : n.toNat + 11 < 2 ^ 64) :
    (calcAllocSize n).toNat = (n.toNat + 11) / 8 * 8 := by
  have h8 : (8 : Size) = BitVec.ofNat 64 1 <<< 3 := by decide
  have h4 : (4 : Size).toNat = 4 := rfl
  have hsum : (n + 4).toNat = n.toNat + 4 := by
    rw [BitVec.toNat_add, h4]
    exact Nat.mod_eq_of_lt (by omega)
  unfold calcAllocSize alignUp
  rw [h8, roundUp_toNat _ (by decide) (by omega), hsum]
  omega

/-- It leaves room for the tag behind the data. -/
theorem calcAllocSize_bounds {n : Size} (hn : n.toNat + 11 < 2 ^ 64) :
    n.toNat + 4 ≤ (calcAllocSize n).toNat
      ∧ (calcAllocSize n).toNat % 8 = 0 := by
  rw [toNat_calcAllocSize hn]
  omega

/-- The size of the next region of chunks: a power of two of pages, a
negative number, or nothing. -/
theorem chunkSize_cases (j : Nat) :
    (j ≤ 30 ∧ ((1#32 <<< j).signExtend 64).toNat = 2 ^ j)
      ∨ 2 ^ 63 < ((1#32 <<< j).signExtend 64).toNat
      ∨ ((1#32 <<< j).signExtend 64).toNat = 0 := by
  have hcases : ∀ i < 32, (i ≤ 30 ∧ ((1#32 <<< i).signExtend 64).toNat = 2 ^ i)
      ∨ 2 ^ 63 < ((1#32 <<< i).signExtend 64).toNat := by
    decide +kernel
  by_cases hlt : j < 32
  · exact (hcases j hlt).imp_right .inl
  · have hzero : 1#32 <<< j = 0#32 := BitVec.shiftLeft_eq_zero (by omega)
    rw [hzero]
    exact .inr (.inr rfl)

section
variable {k : Nat} (hk : PageShift k)

/-- What the shifts of the page size come to. -/
theorem pageOf_cases : ∀ k < 31, 8 ≤ k →
    (pageOf k).signExtend 64 = BitVec.ofNat 64 1 <<< k
      ∧ (pageOf k - 128).signExtend 64 = BitVec.ofNat 64 (2 ^ k - 128)
      ∧ (pageOf k).toNat = 2 ^ k
      ∧ popcnt32 (pageOf k) = 1 ∧ bsf32 (pageOf k) = k := by
  decide +kernel

include hk

theorem signExtend_pageOf :
    (pageOf k).signExtend 64 = BitVec.ofNat 64 1 <<< k :=
  (pageOf_cases k (Nat.lt_succ_of_le hk.2) hk.1).1

theorem toNat_pageOf : (pageOf k).toNat = 2 ^ k :=
  (pageOf_cases k (Nat.lt_succ_of_le hk.2) hk.1).2.2.1

/-- A page, in numbers. -/
theorem page_bounds : 256 ≤ 2 ^ k ∧ 2 ^ k ≤ 2 ^ 30 ∧ 2 ^ k % 8 = 0 := by
  have hlo : 2 ^ 8 ≤ 2 ^ k := Nat.pow_le_pow_right (by decide) hk.1
  have hhi : 2 ^ k ≤ 2 ^ 30 := Nat.pow_le_pow_right (by decide) hk.2
  have hmod : 2 ^ k % 8 = 0 := by
    have hsplit : 2 ^ k = 2 ^ 3 * 2 ^ (k - 3) := by
      rw [← pow_add]
      congr 1
      have h8 := hk.1
      omega
    rw [hsplit]
    exact Nat.mul_mod_right _ _
  exact ⟨hlo, hhi, hmod⟩

/-- The test for a large allocation. -/
theorem isLarge_iff (a : Size) :
    IsLarge (pageOf k) a ↔ 2 ^ k - 128 ≤ a.toNat := by
  have hpage := page_bounds hk
  unfold IsLarge
  rw [(pageOf_cases k (Nat.lt_succ_of_le hk.2) hk.1).2.1]
  show (BitVec.ofNat 64 (2 ^ k - 128)).toNat ≤ a.toNat ↔ _
  rw [BitVec.toNat_ofNat, Nat.mod_eq_of_lt (by omega)]

/-- The size of a large region: whole pages, the header and the
allocation. -/
theorem largeSize_bounds {a : Size} (ha : a.toNat + 31 + 2 ^ k < 2 ^ 64) :
    a.toNat + 32 ≤ (largeSize (pageOf k) a).toNat
      ∧ (largeSize (pageOf k) a).toNat % 2 ^ k = 0 := by
  have hpos := Nat.two_pow_pos k
  have h32 : sizeofPageHeader.toNat = 32 := rfl
  have hsum : (a + sizeofPageHeader).toNat = a.toNat + 32 := by
    rw [BitVec.toNat_add, h32]
    exact Nat.mod_eq_of_lt (by omega)
  unfold largeSize alignUp
  rw [signExtend_pageOf hk, roundUp_toNat _ (by have := hk.2; omega)
    (by rw [hsum]; omega), hsum]
  refine ⟨?_, Nat.mul_mod_left _ _⟩
  have hdiv := Nat.div_add_mod (a.toNat + 32 + (2 ^ k - 1)) (2 ^ k)
  have hmod := Nat.mod_lt (a.toNat + 32 + (2 ^ k - 1)) hpos
  rw [Nat.mul_comm]
  omega

/-- A whole number of pages, as a `size_t`, or doubled. -/
theorem signExtend_mod {v : Word} (hv : v.toNat % 2 ^ k = 0) :
    (v.signExtend 64).toNat % 2 ^ k = 0 := by
  have hword : 2 ^ k ∣ 2 ^ 32 :=
    Nat.pow_dvd_pow 2 (Nat.le_trans hk.2 (by decide))
  have hsize : 2 ^ k ∣ 2 ^ 64 :=
    Nat.pow_dvd_pow 2 (Nat.le_trans hk.2 (by decide))
  apply Nat.mod_eq_zero_of_dvd
  rw [BitVec.toNat_signExtend, BitVec.toNat_setWidth,
    Nat.mod_eq_of_lt (Nat.lt_of_lt_of_le v.isLt (by decide))]
  apply Nat.dvd_add (Nat.dvd_of_mod_eq_zero hv)
  split
  · exact Nat.dvd_sub hsize hword
  · exact Nat.dvd_zero _

theorem double_mod {v : Word} (hv : v.toNat % 2 ^ k = 0) :
    (v * 2).toNat % 2 ^ k = 0 := by
  have hword : 2 ^ k ∣ 2 ^ 32 :=
    Nat.pow_dvd_pow 2 (Nat.le_trans hk.2 (by decide))
  apply Nat.mod_eq_zero_of_dvd
  rw [BitVec.toNat_mul, Nat.dvd_mod_iff hword]
  exact Nat.dvd_mul_right_of_dvd (Nat.dvd_of_mod_eq_zero hv) _

/-- The mask of page numbers. -/
theorem toNat_and_pfnMask (x : Addr) :
    (x &&& ~~~((1#64 <<< k) - 1)).toNat = x.toNat / 2 ^ k * 2 ^ k :=
  and_alignMask x (by have := hk.2; omega)

/-- A large region is whole pages, also where its size wraps around. -/
theorem largeSize_mod (a : Size) :
    (largeSize (pageOf k) a).toNat % 2 ^ k = 0 := by
  unfold largeSize alignUp
  rw [signExtend_pageOf hk, toNat_and_pfnMask hk]
  exact Nat.mul_mod_left _ _

/-- The offset in a page. -/
theorem toNat_pageOffset {h : Heap} (hm : h.pfnMask = ~~~((1#64 <<< k) - 1))
    (x : Addr) : (h.pageOffset x).toNat = x.toNat % 2 ^ k := by
  have hmask : (1#64 <<< k) - 1 = BitVec.ofNat 64 (2 ^ k - 1) := by
    apply BitVec.eq_of_toNat_eq
    have hlt := ((BitVec.ofNat 64 1 <<< k) - 1).isLt
    have hval := align_sub_one (n := 64) (k := k) (by have := hk.2; omega)
    rw [hval] at hlt
    rw [BitVec.toNat_ofNat, Nat.mod_eq_of_lt hlt]
    exact hval
  unfold Heap.pageOffset
  rw [hm, BitVec.not_not, hmask]
  exact toNat_and_mask x (by have := hk.2; omega)

end

-- ================================================================== tags

/-- All bits of a tag but the one that says that the next chunk is
allocated. -/
def tagMask : Word := 0x7fffffff

/-- That bit does not count. -/
theorem or_nextAllocated (v : Word) :
    (v ||| nextAllocatedBit) &&& tagMask = v &&& tagMask := by
  have hzero : nextAllocatedBit &&& tagMask = 0#32 := by decide
  rw [BitVec.and_comm, BitVec.and_or_distrib_left, BitVec.and_comm,
    BitVec.and_comm tagMask nextAllocatedBit, hzero, BitVec.or_zero]

theorem and_not_nextAllocated (v : Word) :
    (v &&& ~~~nextAllocatedBit) &&& tagMask = v &&& tagMask := by
  have hmask : ~~~nextAllocatedBit &&& tagMask = tagMask := by decide
  rw [BitVec.and_assoc, hmask]

/-- A tag without it, or the size in it. -/
theorem and_tagMask {a : Size} (ha : a.toNat < 2 ^ 30) :
    a.setWidth 32 &&& tagMask = a.setWidth 32
      ∧ (a.setWidth 32 ||| thisAllocatedBit) &&& tagMask
        = a.setWidth 32 ||| thisAllocatedBit := by
  have hmask : tagMask = BitVec.ofNat 32 (2 ^ 31 - 1) := by decide
  have hthis : tagMask &&& thisAllocatedBit = thisAllocatedBit := by decide
  have hsize : a.setWidth 32 &&& tagMask = a.setWidth 32 := by
    apply BitVec.eq_of_toNat_eq
    rw [hmask, toNat_and_mask _ (by decide), BitVec.toNat_setWidth]
    omega
  refine ⟨hsize, ?_⟩
  rw [BitVec.and_comm, BitVec.and_or_distrib_left, BitVec.and_comm, hsize,
    hthis]

/-- A tag of an allocated chunk, read. -/
theorem tag_read {v : Word} {a : Size} (ha : a.toNat < 2 ^ 30)
    (hv : v &&& tagMask = a.setWidth 32 ||| thisAllocatedBit) :
    (v &&& sizeMask).setWidth 64 = a ∧ v &&& thisAllocatedBit ≠ 0 := by
  have hsize : tagMask &&& sizeMask = sizeMask := by decide
  have hthis : tagMask &&& thisAllocatedBit = thisAllocatedBit := by decide
  have hnone : thisAllocatedBit &&& sizeMask = 0#32 := by decide
  have hmask : sizeMask = BitVec.ofNat 32 (2 ^ 30 - 1) := by decide
  constructor
  · apply BitVec.eq_of_toNat_eq
    rw [← hsize, ← BitVec.and_assoc, hv, BitVec.and_comm,
      BitVec.and_or_distrib_left, BitVec.and_comm sizeMask thisAllocatedBit,
      hnone, BitVec.or_zero, BitVec.and_comm, hmask, BitVec.toNat_setWidth,
      toNat_and_mask _ (by decide), BitVec.toNat_setWidth]
    omega
  · intro hzero
    rw [← hthis, ← BitVec.and_assoc, hv, BitVec.and_comm,
      BitVec.and_or_distrib_left, BitVec.and_self] at hzero
    have hbit := congrArg (fun w => BitVec.getLsbD w 30) hzero
    rw [BitVec.getLsbD_or] at hbit
    have hset : thisAllocatedBit.getLsbD 30 = true := by decide
    rw [hset, Bool.or_true] at hbit
    exact absurd hbit (by decide)

end UdeBench.Npr.FirstFit
