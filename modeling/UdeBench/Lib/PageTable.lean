/-
A process's pages: which are mapped, and which of them may be written.

Pages have `2 ^ k` bytes and are numbered. Where the kernel puts a mapping
is a parameter: the `n`-th request goes to the page `place n`, and is
answered where that is fresh. So is what it permits: `grants n` says
whether the `n`-th request of a protection succeeds. A length of zero is
no mapping.

A store of 64 bits needs pages that may be written.
-/
import UdeBench.Lib.ByteMem

namespace UdeBench.PageTable

open Spans ByteMem

/-- What may be done with a page. -/
inductive Prot
  | none | readWrite
deriving DecidableEq, Repr

/-- The pages of a process, and its memory. -/
structure Vm where
  pages : Nat → Option Prot
  mem : ByteMem
  calls : Nat

/-- What the kernel will answer. -/
structure Kernel where
  k : Nat
  place : Nat → Nat
  grants : Nat → Bool

/-- The bytes of a page. -/
def Kernel.pageSize (kern : Kernel) : Nat := 2 ^ kern.k

/-- The end of the addresses a process has. -/
def userSpace : Nat := 2 ^ 47

/-- The pages of a range. -/
def Kernel.pagesOf (kern : Kernel) (len : Nat) : Nat :=
  (len + (kern.pageSize - 1)) / kern.pageSize

/-- A range of pages, changed. -/
def setPages (pages : Nat → Option Prot) (first n : Nat) (x : Option Prot) :
    Nat → Option Prot :=
  fun p => if first ≤ p ∧ p < first + n then x else pages p

/-- Pages that may be mapped. -/
def Fresh (kern : Kernel) (v : Vm) (first n : Nat) : Prop :=
  0 < first ∧ 0 < n ∧ (first + n) * kern.pageSize ≤ userSpace
    ∧ ∀ i < n, v.pages (first + i) = Option.none

instance (kern : Kernel) (v : Vm) (first n : Nat) :
    Decidable (Fresh kern v first n) :=
  inferInstanceAs (Decidable (_ ∧ _ ∧ _ ∧ ∀ i < n, _))

/-- New pages, which hold zeros and may not be touched. -/
def Vm.map (kern : Kernel) (v : Vm) (first n : Nat) : Vm where
  pages := setPages v.pages first n (some .none)
  mem := v.mem.zeroFill (first * kern.pageSize, n * kern.pageSize)
  calls := v.calls + 1

/-- `mmap` of pages that may not be touched: `PROT_NONE`, anonymous. -/
def mmap (kern : Kernel) (v : Vm) (len : BitVec 64) : Vm × Option Addr :=
  let first := kern.place v.calls
  let n := kern.pagesOf len.toNat
  if Fresh kern v first n then
    (v.map kern first n, some (BitVec.ofNat 64 (first * kern.pageSize)))
  else ({ v with calls := v.calls + 1 }, Option.none)

/-- The kernel changes a protection: it is willing, the address is that of
a page, and the pages are mapped. -/
def Granted (kern : Kernel) (v : Vm) (a : Addr) (len : BitVec 64) : Prop :=
  kern.grants v.calls = true ∧ a.toNat % kern.pageSize = 0
    ∧ ∀ i < kern.pagesOf len.toNat,
      v.pages (a.toNat / kern.pageSize + i) ≠ Option.none

instance (kern : Kernel) (v : Vm) (a : Addr) (len : BitVec 64) :
    Decidable (Granted kern v a len) :=
  inferInstanceAs (Decidable (_ ∧ _ ∧ ∀ i < kern.pagesOf len.toNat, _))

/-- `mprotect`: whether it succeeds. -/
def mprotect (kern : Kernel) (v : Vm) (a : Addr) (len : BitVec 64)
    (prot : Prot) : Vm × Bool :=
  if Granted kern v a len then
    ({ v with
      pages := setPages v.pages (a.toNat / kern.pageSize)
        (kern.pagesOf len.toNat) (some prot)
      calls := v.calls + 1 }, true)
  else ({ v with calls := v.calls + 1 }, false)

/-- `munmap`. -/
def munmap (kern : Kernel) (v : Vm) (a : Addr) (len : BitVec 64) : Vm :=
  if a.toNat % kern.pageSize = 0 ∧ 0 < len.toNat then
    { v with
      pages := setPages v.pages (a.toNat / kern.pageSize)
        (kern.pagesOf len.toNat) Option.none }
  else v

/-- A range whose pages may be written. -/
def Writable (kern : Kernel) (v : Vm) (s : Span) : Prop :=
  ∀ i < s.2, v.pages ((s.1 + i) / kern.pageSize) = some .readWrite

instance (kern : Kernel) (v : Vm) (s : Span) :
    Decidable (Writable kern v s) :=
  inferInstanceAs (Decidable (∀ i < s.2, _))

/-- A store of 64 bits. -/
def store (kern : Kernel) (v : Vm) (a x : Addr) : Option Vm :=
  if Writable kern v (span64 a) then
    some { v with mem := v.mem.store64 a x }
  else Option.none

-- ================================================================== pages

variable {kern : Kernel} {v : Vm} {pages : Nat → Option Prot}
  {first n p : Nat} {x : Option Prot}

theorem pageSize_pos (kern : Kernel) : 0 < kern.pageSize :=
  Nat.two_pow_pos kern.k

theorem setPages_in (hlo : first ≤ p) (hhi : p < first + n) :
    setPages pages first n x p = x := if_pos ⟨hlo, hhi⟩

theorem setPages_out (h : p < first ∨ first + n ≤ p) :
    setPages pages first n x p = pages p := if_neg (by omega)

/-- Whole pages. -/
theorem pagesOf_mul (kern : Kernel) (n : Nat) :
    kern.pagesOf (n * kern.pageSize) = n := by
  have hpos := pageSize_pos kern
  unfold Kernel.pagesOf
  rw [Nat.mul_comm n, Nat.mul_add_div hpos,
    Nat.div_eq_of_lt (Nat.sub_lt hpos Nat.one_pos), Nat.add_zero]

/-- The page an address in a range of pages is on. -/
theorem page_within {a : Nat} (hlo : first * kern.pageSize ≤ a)
    (hhi : a < (first + n) * kern.pageSize) :
    first ≤ a / kern.pageSize ∧ a / kern.pageSize < first + n := by
  have hpos := pageSize_pos kern
  exact ⟨(Nat.le_div_iff_mul_le hpos).mpr hlo,
    (Nat.div_lt_iff_lt_mul hpos).mpr hhi⟩

/-- The address of a page. -/
theorem toNat_page (h : (first + n) * kern.pageSize ≤ userSpace) :
    (BitVec.ofNat 64 (first * kern.pageSize)).toNat
      = first * kern.pageSize := by
  have hle : first * kern.pageSize ≤ (first + n) * kern.pageSize :=
    Nat.mul_le_mul_right _ (Nat.le_add_right first n)
  unfold userSpace at h
  rw [BitVec.toNat_ofNat]
  exact Nat.mod_eq_of_lt (by omega)

/-- Pages that may be written. -/
theorem writable_pages {a m : Nat}
    (hpages : ∀ p, first ≤ p → p < first + n → v.pages p = some .readWrite)
    (hlo : first * kern.pageSize ≤ a)
    (hhi : a + m ≤ (first + n) * kern.pageSize) : Writable kern v (a, m) := by
  intro i hi
  have hi' : i < m := hi
  have hpage : first ≤ (a + i) / kern.pageSize
      ∧ (a + i) / kern.pageSize < first + n :=
    page_within (by omega) (by omega)
  exact hpages _ hpage.1 hpage.2

/-- What is mapped and taken back. -/
theorem setPages_back (hfree : ∀ i < n, pages (first + i) = Option.none) :
    setPages (setPages pages first n x) first n Option.none = pages := by
  funext p
  by_cases hp : first ≤ p ∧ p < first + n
  · rw [setPages_in hp.1 hp.2]
    have hfree' := hfree (p - first) (by omega)
    rw [Nat.add_sub_cancel' hp.1] at hfree'
    exact hfree'.symm
  · rw [setPages_out (by omega), setPages_out (by omega)]

/-- New pages leave the others their bytes. -/
theorem map_agree (hfree : ∀ i < n, v.pages (first + i) = Option.none)
    (hp : v.pages p ≠ Option.none) :
    Agree (p * kern.pageSize, kern.pageSize) v.mem
      (v.map kern first n).mem := by
  have hout : p < first ∨ first + n ≤ p := by
    by_contra hin
    have hfree' := hfree (p - first) (by omega)
    rw [Nat.add_sub_cancel' (by omega)] at hfree'
    exact hp hfree'
  apply agree_zeroFill
  obtain hlt | hle := hout
  · left
    have hmul := Nat.mul_le_mul_right kern.pageSize (Nat.succ_le_of_lt hlt)
    rw [Nat.succ_mul] at hmul
    exact hmul
  · right
    have hmul := Nat.mul_le_mul_right kern.pageSize hle
    rw [Nat.add_mul] at hmul
    exact hmul

end UdeBench.PageTable
