/-
Coroutines have their stacks to themselves, and leave no page behind.

A stack is a guard page, which may not be touched, and as many pages above
it as the size asked for needs. `Stacks` is what holds of all coroutines of
a program: their pages are apart, were no one's before, and are what is
mapped beyond what was mapped before (`others`); so a program that has
taken down its coroutines has the pages it began with.

The sizes that `npr_coro_init` serves are those above 0, up to two pages
below 2^31 (`SizeOk`). From -2 pages + 2 to 0 it maps the guard page alone
and writes to it, unless the system refuses (`GuardRefused`); above, its
arithmetic overflows; below, the system refuses.
-/
import UdeBench.Npr.Coro
import UdeBench.Lib.Calls

namespace UdeBench.Npr.Coroutines

open Spans ByteMem Calls
open PageTable (Kernel Vm Prot Granted Writable mmap mprotect munmap
  store setPages userSpace pageSize_pos pagesOf_mul toNat_page)

-- =================================================================== sizes

variable {kern : Kernel} {size : Int}

/-- The sizes of stacks that can be made. -/
def SizeOk (kern : Kernel) (size : Int) : Prop :=
  0 < size ∧ size ≤ 2 ^ 31 - 2 * kern.pageSize

/-- The sizes for which nothing is mapped. -/
def SizeRefused (kern : Kernel) (size : Int) : Prop :=
  -2 ^ 31 ≤ size ∧ size < 2 - 2 * (kern.pageSize : Int)

instance (kern : Kernel) (size : Int) : Decidable (SizeOk kern size) :=
  inferInstanceAs (Decidable (_ ∧ _))

instance (kern : Kernel) (size : Int) : Decidable (SizeRefused kern size) :=
  inferInstanceAs (Decidable (_ ∧ _))

/-- The system answers both requests for a guard page alone. -/
def GuardGranted (kern : Kernel) (v : Vm) : Prop :=
  PageTable.Fresh kern v (kern.place v.calls) 1
    ∧ kern.grants (v.calls + 1) = true

instance (kern : Kernel) (v : Vm) : Decidable (GuardGranted kern v) :=
  inferInstanceAs (Decidable (_ ∧ _))

/-- A size of no pages, where it does not. -/
def GuardRefused (kern : Kernel) (v : Vm) (size : Int) : Prop :=
  2 - 2 * (kern.pageSize : Int) ≤ size ∧ size ≤ 0 ∧ ¬ GuardGranted kern v

instance (kern : Kernel) (v : Vm) (size : Int) :
    Decidable (GuardRefused kern v size) :=
  inferInstanceAs (Decidable (_ ∧ _ ∧ ¬ _))

theorem int_ok {x : Int} (hlo : -2 ^ 31 ≤ x) (hhi : x < 2 ^ 31) :
    int x = .ok x := if_pos ⟨hlo, hhi⟩

theorem int_overflow {x : Int} (h : 2 ^ 31 ≤ x) :
    int x = .error .intOverflow := if_neg (by omega)

/-- A size in pages. -/
theorem ceilDiv_ok (h : SizeOk kern size) :
    ∃ n : Nat, 0 < n ∧ size ≤ (n * kern.pageSize : Nat)
      ∧ (n + 1) * kern.pageSize < 2 ^ 31
      ∧ ceilDiv size kern.pageSize = .ok n := by
  have hpos := pageSize_pos kern
  obtain ⟨hlo, hhi⟩ := h
  obtain ⟨m, rfl⟩ := Int.eq_ofNat_of_zero_le (Int.le_of_lt hlo)
  have hm : 0 < m := by omega
  have hdown := Nat.div_mul_le_self (m + (kern.pageSize - 1)) kern.pageSize
  have hup := Nat.lt_div_mul_add (a := m + (kern.pageSize - 1)) hpos
  have hsum : (m : Int) + ((kern.pageSize : Int) - 1)
      = ((m + (kern.pageSize - 1) : Nat) : Int) := by omega
  refine ⟨(m + (kern.pageSize - 1)) / kern.pageSize,
    Nat.div_pos (by omega) hpos, by omega, ?_, ?_⟩
  · rw [Nat.add_mul]
    omega
  · unfold ceilDiv
    rw [hsum, int_ok (by omega) (by omega)]
    rfl

/-- A size that is too large. -/
theorem ceilDiv_large (h : 2 ^ 31 - 2 * (kern.pageSize : Int) < size)
    (hk : kern.k ≤ 30) :
    ceilDiv size kern.pageSize = .error .intOverflow
      ∨ ∃ n : Nat, ceilDiv size kern.pageSize = .ok n
        ∧ 2 ^ 31 ≤ (n + 1) * kern.pageSize := by
  have hpos := pageSize_pos kern
  obtain ⟨q, hq⟩ : kern.pageSize ∣ 2 ^ 31 := pow_dvd_pow 2 (by omega)
  have hq' : kern.pageSize * q = q * kern.pageSize := Nat.mul_comm _ _
  have hle : kern.pageSize ≤ 2 ^ 30 := Nat.pow_le_pow_right (by omega) hk
  obtain ⟨m, rfl⟩ := Int.eq_ofNat_of_zero_le (show 0 ≤ size by omega)
  have hsum : (m : Int) + ((kern.pageSize : Int) - 1)
      = ((m + (kern.pageSize - 1) : Nat) : Int) := by omega
  unfold ceilDiv
  rw [hsum]
  by_cases hover : 2 ^ 31 ≤ m + (kern.pageSize - 1)
  · left
    rw [int_overflow (by omega)]
    rfl
  · right
    rw [int_ok (by omega) (by omega)]
    refine ⟨(m + (kern.pageSize - 1)) / kern.pageSize, rfl, ?_⟩
    -- the quotient is no less than the number of pages below 2^31, less one
    have hquot : q - 1 ≤ (m + (kern.pageSize - 1)) / kern.pageSize := by
      rw [Nat.le_div_iff_mul_le hpos, Nat.sub_mul, Nat.one_mul]
      omega
    have hmul := Nat.mul_le_mul_right kern.pageSize
      (show q ≤ (m + (kern.pageSize - 1)) / kern.pageSize + 1 by omega)
    omega

/-- A size of no pages. -/
theorem ceilDiv_zero (hk : kern.k ≤ 30)
    (hlo : 2 - 2 * (kern.pageSize : Int) ≤ size) (hhi : size ≤ 0) :
    ceilDiv size kern.pageSize = .ok 0 := by
  have hpos := pageSize_pos kern
  have hle : kern.pageSize ≤ 2 ^ 30 := Nat.pow_le_pow_right (by omega) hk
  unfold ceilDiv
  rw [int_ok (by omega) (by omega)]
  show Except.ok (Int.tdiv _ _) = _
  by_cases hsign : 0 ≤ size + ((kern.pageSize : Int) - 1)
  · rw [Int.tdiv_eq_zero_of_lt hsign (by omega)]
  · rw [← Int.neg_neg (size + ((kern.pageSize : Int) - 1)), Int.neg_tdiv,
      Int.tdiv_eq_zero_of_lt (by omega) (by omega)]
    rfl

/-- A size of less than none. -/
theorem ceilDiv_neg (hk : kern.k ≤ 30) (h : SizeRefused kern size) :
    ∃ n : Int, ceilDiv size kern.pageSize = .ok n ∧ n + 1 ≤ 0
      ∧ -2 ^ 31 ≤ (n + 1) * kern.pageSize := by
  have hpos := pageSize_pos kern
  have hle : kern.pageSize ≤ 2 ^ 30 := Nat.pow_le_pow_right (by omega) hk
  obtain ⟨hlo, hhi⟩ := h
  obtain ⟨m, hm⟩ := Int.eq_ofNat_of_zero_le
    (show 0 ≤ -(size + ((kern.pageSize : Int) - 1)) by omega)
  have hdown := Nat.div_mul_le_self m kern.pageSize
  have hone : 1 ≤ m / kern.pageSize := Nat.div_pos (by omega) hpos
  refine ⟨-((m / kern.pageSize : Nat) : Int), ?_, by omega, ?_⟩
  · unfold ceilDiv
    rw [int_ok (by omega) (by omega)]
    show Except.ok (Int.tdiv _ _) = _
    rw [← Int.neg_neg (size + ((kern.pageSize : Int) - 1)), hm, Int.neg_tdiv]
    rfl
  · have hmul : ((m / kern.pageSize : Nat) : Int) * (kern.pageSize : Int)
        = ((m / kern.pageSize * kern.pageSize : Nat) : Int) := by
      push_cast
      rfl
    rw [Int.add_mul, Int.neg_mul, hmul]
    omega

-- ================================================================== stacks

/-- The first of a coroutine's pages, and how many there are. -/
def Coro.first (kern : Kernel) (c : Coro) : Nat :=
  c.stackTop.toNat / kern.pageSize

def Coro.count (kern : Kernel) (c : Coro) : Nat :=
  c.stackAllocSize.toNat / kern.pageSize

/-- A page is a coroutine's. -/
def Coro.Has (kern : Kernel) (c : Coro) (p : Nat) : Prop :=
  c.first kern ≤ p ∧ p < c.first kern + c.count kern

/-- Where a coroutine's pages are. -/
structure Laid (kern : Kernel) (c : Coro) : Prop where
  top : c.stackTop.toNat = c.first kern * kern.pageSize
  size : c.stackAllocSize = (c.count kern * kern.pageSize : Nat)
  count : 1 < c.count kern
  space : (c.first kern + c.count kern) * kern.pageSize ≤ userSpace
  small : c.count kern * kern.pageSize < 2 ^ 31
  sp : c.sp.toNat + 24 = (c.first kern + c.count kern) * kern.pageSize

/-- The words a coroutine starts with. -/
def Frame (start ptr arg : Addr) (m : ByteMem) (c : Coro) : Prop :=
  m.load64 c.sp = start ∧ m.load64 (c.sp + 8) = ptr
    ∧ m.load64 (c.sp + 16) = arg

/-- What was mapped keeps its bytes. -/
def KeepsMem (kern : Kernel) (v v' : Vm) : Prop :=
  ∀ p, v.pages p ≠ none →
    Agree (p * kern.pageSize, kern.pageSize) v.mem v'.mem

/-- What `npr_coro_init` makes. -/
structure Born (kern : Kernel) (start ptr arg : Addr) (size : Int)
    (v v' : Vm) (c : Coro) : Prop where
  laid : Laid kern c
  room : size + kern.pageSize ≤ c.stackAllocSize
  fresh : ∀ p, c.Has kern p → v.pages p = none
  guard : v'.pages (c.first kern) = some .none
  stack : ∀ p, c.first kern < p → c.Has kern p →
    v'.pages p = some .readWrite
  others : ∀ p, ¬ c.Has kern p → v'.pages p = v.pages p
  frame : Frame start ptr arg v'.mem c

variable {start ptr entry arg : Addr} {v v' : Vm} {c : Coro}
  {first n : Nat}

/-- Numbers that are sizes. -/
theorem toNat_ofInt (h : n < 2 ^ 64) :
    (BitVec.ofInt 64 (n : Int)).toNat = n := by
  rw [BitVec.ofInt_natCast, BitVec.toNat_ofNat]
  exact Nat.mod_eq_of_lt h

/-- The words lie in the last page. -/
theorem stack_end (hk : 5 ≤ kern.k) (hn : 0 < n) :
    (first + 1) * kern.pageSize + 24 ≤ (first + (n + 1)) * kern.pageSize
      ∧ (first + n) * kern.pageSize + 24
        ≤ (first + (n + 1)) * kern.pageSize := by
  have hle : 2 ^ 5 ≤ kern.pageSize := Nat.pow_le_pow_right (by omega) hk
  have hmul := Nat.mul_le_mul_right kern.pageSize
    (show first + 1 ≤ first + n by omega)
  have hsucc : (first + (n + 1)) * kern.pageSize
      = (first + n) * kern.pageSize + kern.pageSize := by
    rw [← Nat.add_assoc, Nat.succ_mul]
  omega

/-- The three words above `sp`. -/
theorem toNat_words {sp : Addr} (h : sp.toNat + 24 < 2 ^ 64) :
    (sp + 8).toNat = sp.toNat + 8 ∧ (sp + 16).toNat = sp.toNat + 16 := by
  constructor
  · rw [BitVec.toNat_add]
    exact Nat.mod_eq_of_lt (show sp.toNat + 8 < 2 ^ 64 by omega)
  · rw [BitVec.toNat_add]
    exact Nat.mod_eq_of_lt (show sp.toNat + 16 < 2 ^ 64 by omega)

/-- Where `sp` is. -/
theorem toNat_sp (hspace : (first + (n + 1)) * kern.pageSize ≤ userSpace)
    (h : 24 ≤ (first + (n + 1)) * kern.pageSize) :
    (BitVec.ofNat 64 (first * kern.pageSize)
      + BitVec.ofInt 64 (((n + 1) * kern.pageSize : Nat) : Int) - 24).toNat
      = (first + (n + 1)) * kern.pageSize - 24 := by
  have huser : userSpace = 2 ^ 47 := rfl
  have hsum : (first + (n + 1)) * kern.pageSize
      = first * kern.pageSize + (n + 1) * kern.pageSize := Nat.add_mul _ _ _
  have hbottom : (BitVec.ofNat 64 (first * kern.pageSize)
      + BitVec.ofInt 64 (((n + 1) * kern.pageSize : Nat) : Int)).toNat
      = (first + (n + 1)) * kern.pageSize := by
    rw [BitVec.toNat_add, toNat_page hspace, toNat_ofInt (by omega), ← hsum]
    exact Nat.mod_eq_of_lt (by omega)
  rw [BitVec.toNat_sub_of_le, hbottom]
  · rfl
  · rw [BitVec.le_def, hbottom]
    exact h

/-- A word on the stack. -/
theorem put_ok {a : Nat} {m : Nat}
    (hpages : ∀ p, first ≤ p → p < first + m → v.pages p = some .readWrite)
    {p : Addr} (hp : p.toNat = a) (hlo : first * kern.pageSize ≤ a)
    (hhi : a + 8 ≤ (first + m) * kern.pageSize) (mem : ByteMem)
    (x : Addr) : put kern { v with mem } p x
      = .ok { v with mem := mem.store64 p x } := by
  have hwritable : Writable kern { v with mem } (span64 p) :=
    PageTable.writable_pages hpages (by rw [hp]; exact hlo)
      (by rw [hp]; exact hhi)
  unfold put store
  rw [if_pos hwritable]

/-- The words that were written are there. -/
theorem frame_ok (m : ByteMem) {a : Nat} {sp : Addr} (hsp : sp.toNat = a)
    (ha : a + 24 < 2 ^ 64) (e : Addr) (top : Addr) (s : Int) :
    Frame start ptr arg (((m.store64 sp start).store64 (sp + 8) ptr).store64
      (sp + 16) arg) ⟨sp, e, top, s⟩ := by
  obtain ⟨h8, h16⟩ := @toNat_words sp (by omega)
  have apart : ∀ {x y : Addr}, x.toNat + 8 ≤ y.toNat →
      Apart (span64 x) (span64 y) := fun h => .inl h
  refine ⟨?_, ?_, load64_store64 _ _ _⟩
  · show ByteMem.load64 _ sp = start
    rw [(agree_store64 (apart (by omega)) _ _).load64,
      (agree_store64 (apart (by omega)) _ _).load64, load64_store64]
  · show ByteMem.load64 _ (sp + 8) = ptr
    rw [(agree_store64 (apart (by omega)) _ _).load64, load64_store64]

/-- The words are written where the stack may be. -/
theorem stackInit_ok (hk : 5 ≤ kern.k) (hn : 0 < n)
    (hspace : (first + (n + 1)) * kern.pageSize ≤ userSpace)
    (hpages : ∀ p, first + 1 ≤ p → p < first + 1 + n →
      v.pages p = some .readWrite) (start ptr entry arg : Addr) :
    ∃ m' sp, stackInit kern start v ptr entry arg
        (BitVec.ofNat 64 (first * kern.pageSize))
        ((n + 1) * kern.pageSize : Nat)
        = .ok ({ v with mem := m' }, ⟨sp, entry,
          BitVec.ofNat 64 (first * kern.pageSize),
          ((n + 1) * kern.pageSize : Nat)⟩)
      ∧ sp.toNat + 24 = (first + (n + 1)) * kern.pageSize
      ∧ Frame start ptr arg m' ⟨sp, entry,
          BitVec.ofNat 64 (first * kern.pageSize),
          ((n + 1) * kern.pageSize : Nat)⟩
      ∧ Within [((first + n) * kern.pageSize, kern.pageSize)] v.mem m' := by
  have hends : (first + 1) * kern.pageSize + 24
        ≤ (first + (n + 1)) * kern.pageSize
      ∧ (first + n) * kern.pageSize + 24
        ≤ (first + (n + 1)) * kern.pageSize := stack_end hk hn
  have hlast : (first + (n + 1)) * kern.pageSize
      = (first + n) * kern.pageSize + kern.pageSize := by
    rw [← Nat.add_assoc, Nat.succ_mul]
  have hrange : (first + 1 + n) * kern.pageSize
      = (first + (n + 1)) * kern.pageSize := by
    rw [Nat.add_assoc, Nat.add_comm 1 n]
  have huser : userSpace = 2 ^ 47 := rfl
  obtain ⟨sp, hsp⟩ : ∃ sp, sp = BitVec.ofNat 64 (first * kern.pageSize)
      + BitVec.ofInt 64 (((n + 1) * kern.pageSize : Nat) : Int) - 24 :=
    ⟨_, rfl⟩
  have hsp0 : sp.toNat = (first + (n + 1)) * kern.pageSize - 24 := by
    rw [hsp]
    exact toNat_sp hspace (by omega)
  obtain ⟨hsp8, hsp16⟩ := @toNat_words sp (by omega)
  refine ⟨((v.mem.store64 sp start).store64 (sp + 8) ptr).store64 (sp + 16)
    arg, sp, ?_, by omega, frame_ok v.mem hsp0 (by omega) entry _ _, ?_⟩
  · unfold stackInit
    simp only
    rw [← hsp, put_ok hpages hsp0 (by omega) (by omega) v.mem, ok_bind,
      put_ok hpages hsp8 (by omega) (by omega), ok_bind,
      put_ok hpages hsp16 (by omega) (by omega), ok_bind]
  · have hin : ((first + n) * kern.pageSize, kern.pageSize)
        ∈ [((first + n) * kern.pageSize, kern.pageSize)] :=
      List.mem_singleton.mpr rfl
    exact ((within_store64 hin (by show _ ≤ sp.toNat; omega)
      (by show sp.toNat + 8 ≤ _; omega) _ _).trans
      (within_store64 hin (by show _ ≤ (sp + 8).toNat; omega)
        (by show (sp + 8).toNat + 8 ≤ _; omega) _ _)).trans
      (within_store64 hin (by show _ ≤ (sp + 16).toNat; omega)
        (by show (sp + 16).toNat + 8 ≤ _; omega) _ _)

-- ================================================================== set up

/-- `mmap` of whole pages. -/
theorem mmap_fresh {len : BitVec 64} (hlen : len.toNat = n * kern.pageSize)
    (h : PageTable.Fresh kern v (kern.place v.calls) n) :
    mmap kern v len = (v.map kern (kern.place v.calls) n,
      some (BitVec.ofNat 64 (kern.place v.calls * kern.pageSize))) := by
  unfold mmap
  simp only
  rw [hlen, pagesOf_mul, if_pos h]

theorem mmap_refused {len : BitVec 64} (hlen : len.toNat = n * kern.pageSize)
    (h : ¬ PageTable.Fresh kern v (kern.place v.calls) n) :
    mmap kern v len = ({ v with calls := v.calls + 1 }, none) := by
  unfold mmap
  simp only
  rw [hlen, pagesOf_mul, if_neg h]

/-- How a structure over whole pages is laid out. -/
theorem laid_ok (hn : 0 < n)
    (hspace : (first + (n + 1)) * kern.pageSize ≤ userSpace)
    (hsmall : (n + 1) * kern.pageSize < 2 ^ 31) {c : Coro}
    (htop : c.stackTop = BitVec.ofNat 64 (first * kern.pageSize))
    (hsize : c.stackAllocSize = ((n + 1) * kern.pageSize : Nat))
    (hsp : c.sp.toNat + 24 = (first + (n + 1)) * kern.pageSize) :
    c.first kern = first ∧ c.count kern = n + 1 ∧ Laid kern c := by
  have hpos := pageSize_pos kern
  have hfirst : c.first kern = first := by
    unfold Coro.first
    rw [htop, toNat_page hspace, Nat.mul_div_cancel _ hpos]
  have hcount : c.count kern = n + 1 := by
    unfold Coro.count
    rw [hsize, Int.toNat_natCast, Nat.mul_div_cancel _ hpos]
  refine ⟨hfirst, hcount, ?_, ?_, ?_, ?_, ?_, ?_⟩
  · rw [hfirst, htop, toNat_page hspace]
  · rw [hcount, hsize]
  · rw [hcount]
    omega
  · rw [hfirst, hcount]
    exact hspace
  · rw [hcount]
    exact hsmall
  · rw [hfirst, hcount, hsp]

/-- What is done once the pages are there. -/
theorem born_ok (hk : 5 ≤ kern.k) (hn : 0 < n)
    (hfresh : PageTable.Fresh kern v first (n + 1))
    (hsmall : (n + 1) * kern.pageSize < 2 ^ 31)
    (hroom : size ≤ (n * kern.pageSize : Nat)) {v₂ : Vm}
    (hpages : v₂.pages = setPages (setPages v.pages first (n + 1)
      (some .none)) (first + 1) n (some .readWrite))
    (hmem : KeepsMem kern v v₂) (start ptr entry arg : Addr) :
    ∃ v' c, stackInit kern start v₂ ptr entry arg
        (BitVec.ofNat 64 (first * kern.pageSize))
        ((n + 1) * kern.pageSize : Nat) = .ok (v', c)
      ∧ KeepsMem kern v v' ∧ Born kern start ptr arg size v v' c := by
  obtain ⟨_, _, hspace, hfree⟩ := hfresh
  have hstack : ∀ p, first + 1 ≤ p → p < first + 1 + n →
      v₂.pages p = some .readWrite := by
    intro p hlo hhi
    rw [hpages, PageTable.setPages_in hlo hhi]
  obtain ⟨m', sp, hok, hsp, hframe, hwithin⟩ :=
    stackInit_ok hk hn hspace hstack start ptr entry arg
  obtain ⟨c, hc⟩ : ∃ c : Coro, c = ⟨sp, entry,
      BitVec.ofNat 64 (first * kern.pageSize),
      ((n + 1) * kern.pageSize : Nat)⟩ := ⟨_, rfl⟩
  obtain ⟨hfirst, hcount, hlaid⟩ := laid_ok (c := c) hn hspace hsmall
    (by rw [hc]) (by rw [hc]) (by rw [hc, hsp])
  have hhas : ∀ p, c.Has kern p ↔ first ≤ p ∧ p < first + (n + 1) := by
    intro p
    unfold Coro.Has
    rw [hfirst, hcount]
  have hnone : ∀ p, c.Has kern p → v.pages p = none := by
    intro p hp
    obtain ⟨hlo, hhi⟩ := (hhas p).mp hp
    have hfree' := hfree (p - first) (by omega)
    rw [Nat.add_sub_cancel' hlo] at hfree'
    exact hfree'
  rw [← hc] at hok hframe
  refine ⟨_, c, hok, ?_, hlaid, ?_, hnone, ?_, ?_, ?_, hframe⟩
  · intro p hp
    refine (hmem p hp).trans (hwithin _ fun x hx => ?_)
    obtain rfl := List.mem_singleton.mp hx
    -- a page that was mapped is not the last page of the stack
    have hne : p ≠ first + n := by
      intro heq
      exact hp (heq ▸ hfree n (Nat.lt_succ_self n))
    obtain hlt | hgt := Nat.lt_or_gt_of_ne hne
    · left
      have hmul := Nat.mul_le_mul_right kern.pageSize (Nat.succ_le_of_lt hlt)
      rw [Nat.succ_mul] at hmul
      exact hmul
    · right
      have hmul := Nat.mul_le_mul_right kern.pageSize (Nat.succ_le_of_lt hgt)
      rw [Nat.succ_mul] at hmul
      exact hmul
  · rw [hc]
    show size + kern.pageSize ≤ (((n + 1) * kern.pageSize : Nat) : Int)
    rw [Nat.succ_mul]
    omega
  · show v₂.pages _ = _
    rw [hfirst, hpages, PageTable.setPages_out (by omega),
      PageTable.setPages_in (Nat.le_refl _) (by omega)]
  · intro p hlo hp
    rw [hfirst] at hlo
    exact hstack p hlo (by have := ((hhas p).mp hp).2; omega)
  · intro p hp
    rw [hhas] at hp
    show v₂.pages p = _
    rw [hpages, PageTable.setPages_out (by omega),
      PageTable.setPages_out (by omega)]

/-- The sizes of the mappings, where they are `int`s. -/
theorem coroInit_eq (start : Addr) (v : Vm) (ptr entry arg : Addr)
    (hceil : ceilDiv size kern.pageSize = .ok n)
    (hsmall : (n + 1) * kern.pageSize < 2 ^ 31) :
    coroInit kern start v ptr entry arg size
      = mapStack kern start v ptr entry arg (n + 1 : Nat)
        ((n + 1) * kern.pageSize : Nat) := by
  have hpos := pageSize_pos kern
  have hle : n + 1 ≤ (n + 1) * kern.pageSize := Nat.le_mul_of_pos_right _ hpos
  unfold coroInit
  simp only
  rw [hceil, ok_bind, int_ok (by omega) (by omega), ok_bind]
  have hmul : ((n : Int) + 1) * (kern.pageSize : Int)
      = (((n + 1) * kern.pageSize : Nat) : Int) := by
    push_cast
    rfl
  rw [hmul, int_ok (by omega) (by omega), ok_bind]
  rfl

/-- `mmap` refuses. -/
theorem mapStack_refused {num : Int}
    (hsmall : (n + 1) * kern.pageSize < 2 ^ 31)
    (hfresh : ¬ PageTable.Fresh kern v (kern.place v.calls) (n + 1)) :
    mapStack kern start v ptr entry arg num ((n + 1) * kern.pageSize : Nat)
      = .ok ({ v with calls := v.calls + 1 }, none) := by
  unfold mapStack
  rw [mmap_refused (toNat_ofInt (by omega)) hfresh]

/-- The page above the guard. -/
theorem toNat_above (hspace : (first + (n + 1)) * kern.pageSize ≤ userSpace) :
    (BitVec.ofNat 64 (first * kern.pageSize)
        + BitVec.ofInt 64 (kern.pageSize : Nat)).toNat
      = (first + 1) * kern.pageSize := by
  have hle := Nat.mul_le_mul_right kern.pageSize
    (show first + 1 ≤ first + (n + 1) by omega)
  have huser : userSpace = 2 ^ 47 := rfl
  have hsucc := Nat.add_one_mul first kern.pageSize
  rw [BitVec.toNat_add, toNat_page hspace, toNat_ofInt (by omega), ← hsucc]
  exact Nat.mod_eq_of_lt (by omega)

/-- `mprotect` of whole pages. -/
theorem mprotect_granted {a : Addr} {len : BitVec 64} {prot : Prot}
    (ha : a.toNat = first * kern.pageSize)
    (hlen : len.toNat = n * kern.pageSize) (h : Granted kern v a len) :
    mprotect kern v a len prot
      = ({ v with
          pages := setPages v.pages first n (some prot)
          calls := v.calls + 1 }, true) := by
  unfold mprotect
  rw [if_pos h, ha, hlen, pagesOf_mul, Nat.mul_div_cancel _ (pageSize_pos kern)]

/-- The kernel's own will decides where the pages are there. -/
theorem granted_iff {a : Addr} {len : BitVec 64}
    (ha : a.toNat = (first + 1) * kern.pageSize)
    (hlen : len.toNat = n * kern.pageSize) :
    Granted kern (v.map kern first (n + 1)) a len
      ↔ kern.grants (v.calls + 1) = true := by
  have hpos := pageSize_pos kern
  unfold Granted
  rw [ha, hlen, pagesOf_mul, Nat.mul_div_cancel _ hpos, Nat.mul_mod_left]
  refine ⟨fun h => h.1, fun h => ⟨h, rfl, fun i hi => ?_⟩⟩
  show setPages v.pages first (n + 1) (some .none) (first + 1 + i) ≠ none
  rw [PageTable.setPages_in (by omega) (by omega)]
  exact Option.some_ne_none _

/-- `munmap` of what has just been mapped. -/
theorem munmap_back {w : Vm} {len : BitVec 64}
    (hfresh : PageTable.Fresh kern v first (n + 1))
    (hlen : len.toNat = (n + 1) * kern.pageSize)
    (hw : w.pages = (v.map kern first (n + 1)).pages) :
    (munmap kern w (BitVec.ofNat 64 (first * kern.pageSize)) len).pages
        = v.pages
      ∧ (munmap kern w (BitVec.ofNat 64 (first * kern.pageSize)) len).mem
        = w.mem := by
  have hpos := pageSize_pos kern
  obtain ⟨_, _, hspace, hfree⟩ := hfresh
  have hsize : 0 < len.toNat := by
    rw [hlen]
    exact Nat.mul_pos (Nat.succ_pos n) hpos
  unfold munmap
  rw [toNat_page hspace, if_pos ⟨Nat.mul_mod_left _ _, hsize⟩, hlen,
    pagesOf_mul, Nat.mul_div_cancel _ hpos, hw]
  exact ⟨PageTable.setPages_back hfree, rfl⟩

/-- The lengths that are mapped and unprotected. -/
theorem lengths_ok (hsmall : (n + 1) * kern.pageSize < 2 ^ 31) :
    (BitVec.ofInt 64 (((n + 1) * kern.pageSize : Nat) : Int)).toNat
        = (n + 1) * kern.pageSize
      ∧ (BitVec.ofInt 64 ((n * kern.pageSize : Nat) : Int)).toNat
        = n * kern.pageSize
      ∧ int ((((n + 1 : Nat) : Int) - 1) * (kern.pageSize : Int))
        = .ok ((n * kern.pageSize : Nat) : Int) := by
  have hsucc := Nat.add_one_mul n kern.pageSize
  have hrest : (((n + 1 : Nat) : Int) - 1) * (kern.pageSize : Int)
      = ((n * kern.pageSize : Nat) : Int) := by
    push_cast
    rw [Int.add_sub_cancel]
  refine ⟨toNat_ofInt (by omega), toNat_ofInt (by omega), ?_⟩
  rw [hrest]
  exact int_ok (by omega) (by omega)

/-- `mprotect` refuses, and the pages are given back. -/
theorem mapStack_denied (start ptr entry arg : Addr)
    (hsmall : (n + 1) * kern.pageSize < 2 ^ 31)
    (hfresh : PageTable.Fresh kern v (kern.place v.calls) (n + 1))
    (hdenied : kern.grants (v.calls + 1) ≠ true) :
    ∃ v', mapStack kern start v ptr entry arg (n + 1 : Nat)
        ((n + 1) * kern.pageSize : Nat) = .ok (v', none)
      ∧ v'.pages = v.pages ∧ KeepsMem kern v v' := by
  have habove := toNat_above hfresh.2.2.1
  obtain ⟨hlen, hlen', hrest⟩ := lengths_ok hsmall
  have hnot := mt (granted_iff habove hlen').mp hdenied
  obtain ⟨hpages, hmem⟩ := munmap_back hfresh hlen
    (w := { v.map kern (kern.place v.calls) (n + 1) with
      calls := (v.map kern (kern.place v.calls) (n + 1)).calls + 1 }) rfl
  refine ⟨_, ?_, hpages, fun p hp => ?_⟩
  · unfold mapStack
    simp only
    rw [mmap_fresh hlen hfresh]
    simp only
    rw [hrest, ok_bind, mprotect, if_neg hnot]
  · rw [hmem]
    exact PageTable.map_agree hfresh.2.2.2 hp

/-- The kernel answers, and the stack is set up. -/
theorem mapStack_granted (start ptr entry arg : Addr)
    (hsmall : (n + 1) * kern.pageSize < 2 ^ 31)
    (hfresh : PageTable.Fresh kern v (kern.place v.calls) (n + 1))
    (hgrants : kern.grants (v.calls + 1) = true) :
    ∃ w, mapStack kern start v ptr entry arg (n + 1 : Nat)
        ((n + 1) * kern.pageSize : Nat)
        = (stackInit kern start w ptr entry arg
            (BitVec.ofNat 64 (kern.place v.calls * kern.pageSize))
            ((n + 1) * kern.pageSize : Nat)
          >>= fun r => .ok (r.1, some r.2))
      ∧ w.pages = setPages (setPages v.pages (kern.place v.calls) (n + 1)
          (some .none)) (kern.place v.calls + 1) n (some .readWrite)
      ∧ KeepsMem kern v w := by
  have habove := toNat_above hfresh.2.2.1
  obtain ⟨hlen, hlen', hrest⟩ := lengths_ok hsmall
  have hgranted := (granted_iff habove hlen').mpr hgrants
  refine ⟨{ v.map kern (kern.place v.calls) (n + 1) with
      pages := setPages (v.map kern (kern.place v.calls) (n + 1)).pages
        (kern.place v.calls + 1) n (some .readWrite)
      calls := v.calls + 1 + 1 }, ?_, rfl, fun p hp =>
    PageTable.map_agree hfresh.2.2.2 hp⟩
  unfold mapStack
  simp only
  rw [mmap_fresh hlen hfresh]
  simp only
  rw [hrest, ok_bind, mprotect_granted habove hlen' hgranted]
  rfl

/-- `npr_coro_init`, for a size that it serves: it makes a stack, or the
system has refused and all is as it was. -/
theorem coroInit_ok (hk : 5 ≤ kern.k) (hsize : SizeOk kern size)
    (start : Addr) (v : Vm) (ptr entry arg : Addr) :
    ∃ v' r, coroInit kern start v ptr entry arg size = .ok (v', r)
      ∧ KeepsMem kern v v'
      ∧ (r = none ∧ v'.pages = v.pages
        ∨ ∃ c, r = some c ∧ Born kern start ptr arg size v v' c) := by
  obtain ⟨n, hn, hroom, hsmall, hceil⟩ := ceilDiv_ok hsize
  rw [coroInit_eq start v ptr entry arg hceil hsmall]
  by_cases hfresh : PageTable.Fresh kern v (kern.place v.calls) (n + 1)
  · by_cases hgrants : kern.grants (v.calls + 1) = true
    · obtain ⟨w, heq, hpages, hmem⟩ := mapStack_granted start ptr entry
        arg hsmall hfresh hgrants
      obtain ⟨v', c, hok, hkeeps, hborn⟩ := born_ok hk hn hfresh hsmall hroom
        hpages hmem start ptr entry arg
      rw [heq, hok, ok_bind]
      exact ⟨v', some c, rfl, hkeeps, .inr ⟨c, rfl, hborn⟩⟩
    · obtain ⟨v', hok, hpages, hmem⟩ := mapStack_denied start ptr entry
        arg hsmall hfresh hgrants
      exact ⟨v', none, hok, hmem, .inl ⟨rfl, hpages⟩⟩
  · rw [mapStack_refused hsmall hfresh]
    exact ⟨_, none, rfl, fun _ _ => Agree.refl _ _, .inl ⟨rfl, rfl⟩⟩

/-- A guard page is not to be written. -/
theorem put_guard {p a : Addr} {w : Vm} (hpage : w.pages first ≠ some .readWrite)
    (hlo : first * kern.pageSize ≤ p.toNat)
    (hhi : p.toNat < (first + 1) * kern.pageSize) :
    put kern w p a = .error .segv := by
  have hnot : ¬ Writable kern w (span64 p) := by
    intro hw
    have hfirst := hw 0 (show 0 < 8 by omega)
    obtain ⟨hle, hlt⟩ := PageTable.page_within hlo hhi
    have hsame : ((span64 p).1 + 0) / kern.pageSize = first := by
      show p.toNat / kern.pageSize = first
      omega
    rw [hsame] at hfirst
    exact hpage hfirst
  unfold put store
  rw [if_neg hnot]

/-- For a size of no pages it writes to the guard page, unless the system
refuses. -/
theorem coroInit_guard (hk : 5 ≤ kern.k) (hk' : kern.k ≤ 30)
    (hlo : 2 - 2 * (kern.pageSize : Int) ≤ size) (hhi : size ≤ 0)
    (start : Addr) (v : Vm) (ptr entry arg : Addr) :
    (GuardGranted kern v
        ∧ coroInit kern start v ptr entry arg size = .error .segv)
      ∨ ¬ GuardGranted kern v
        ∧ ∃ v', coroInit kern start v ptr entry arg size = .ok (v', none)
          ∧ v'.pages = v.pages ∧ KeepsMem kern v v' := by
  have hle : 2 ^ 5 ≤ kern.pageSize := Nat.pow_le_pow_right (by omega) hk
  have hle' : kern.pageSize ≤ 2 ^ 30 := Nat.pow_le_pow_right (by omega) hk'
  have hsmall : (0 + 1) * kern.pageSize < 2 ^ 31 := by omega
  rw [coroInit_eq start v ptr entry arg (ceilDiv_zero hk' hlo hhi) hsmall]
  by_cases hfresh : PageTable.Fresh kern v (kern.place v.calls) (0 + 1)
  · by_cases hgrants : kern.grants (v.calls + 1) = true
    · refine .inl ⟨⟨hfresh, hgrants⟩, ?_⟩
      obtain ⟨w, heq, hpages, _⟩ := mapStack_granted start ptr entry
        arg hsmall hfresh hgrants
      have hsucc := Nat.add_mul (kern.place v.calls) (0 + 1) kern.pageSize
      have hsp := toNat_sp hfresh.2.2.1 (by omega)
      have hone : (kern.place v.calls + (0 + 1)) * kern.pageSize
          = (kern.place v.calls + 1) * kern.pageSize := rfl
      have hguard : w.pages (kern.place v.calls) ≠ some .readWrite := by
        rw [hpages, PageTable.setPages_out (by omega),
          PageTable.setPages_in (Nat.le_refl _) (by omega)]
        decide
      rw [heq]
      unfold stackInit
      simp only
      rw [put_guard hguard (by rw [hsp]; omega) (by rw [hsp]; omega)]
      rfl
    · exact .inr ⟨fun h => hgrants h.2, mapStack_denied start ptr entry
        arg hsmall hfresh hgrants⟩
  · rw [mapStack_refused hsmall hfresh]
    exact .inr ⟨fun h => hfresh h.1, _, rfl, rfl, fun _ _ => Agree.refl _ _⟩

/-- For a size that is too large the arithmetic overflows. -/
theorem coroInit_large (hk : kern.k ≤ 30)
    (h : 2 ^ 31 - 2 * (kern.pageSize : Int) < size) (start : Addr) (v : Vm)
    (ptr entry arg : Addr) :
    coroInit kern start v ptr entry arg size = .error .intOverflow := by
  unfold coroInit
  simp only
  obtain hceil | ⟨n, hceil, hlarge⟩ := ceilDiv_large h hk
  · rw [hceil]
    rfl
  · rw [hceil, ok_bind]
    by_cases hn : (n : Int) + 1 < 2 ^ 31
    · have hmul : ((n : Int) + 1) * (kern.pageSize : Int)
          = (((n + 1) * kern.pageSize : Nat) : Int) := by
        push_cast
        rfl
      rw [int_ok (by omega) hn, ok_bind, hmul, int_overflow (by omega)]
      rfl
    · rw [int_overflow (by omega)]
      rfl

/-- A length that is nothing, or more than there is. -/
theorem mmap_absurd {len : BitVec 64}
    (h : len.toNat = 0 ∨ userSpace < len.toNat) :
    mmap kern v len = ({ v with calls := v.calls + 1 }, none) := by
  have hpos := pageSize_pos kern
  have hnot : ¬ PageTable.Fresh kern v (kern.place v.calls)
      (kern.pagesOf len.toNat) := by
    intro hfresh
    obtain ⟨_, hn, hspace, _⟩ := hfresh
    unfold Kernel.pagesOf at hn hspace
    obtain hzero | hlarge := h
    · rw [hzero, Nat.zero_add, Nat.div_eq_of_lt (by omega)] at hn
      exact Nat.lt_irrefl 0 hn
    · have hup := Nat.lt_div_mul_add (a := len.toNat + (kern.pageSize - 1))
        hpos
      rw [Nat.add_mul] at hspace
      omega
  unfold mmap
  simp only
  rw [if_neg hnot]

/-- For a size below those the system refuses. -/
theorem coroInit_refused (hk : kern.k ≤ 30) (h : SizeRefused kern size)
    (start : Addr) (v : Vm) (ptr entry arg : Addr) :
    coroInit kern start v ptr entry arg size
      = .ok ({ v with calls := v.calls + 1 }, none) := by
  have hpos := pageSize_pos kern
  obtain ⟨n, hceil, hn, hlo⟩ := ceilDiv_neg hk h
  have hneg : (n + 1) * (kern.pageSize : Int) ≤ 0 :=
    Int.mul_nonpos_of_nonpos_of_nonneg hn (by omega)
  have hn' : -2 ^ 31 ≤ n + 1 := by
    have hmul : (n + 1) * (kern.pageSize : Int) ≤ (n + 1) * 1 :=
      Int.mul_le_mul_of_nonpos_left hn (by omega)
    omega
  have hlen : (BitVec.ofInt 64 ((n + 1) * (kern.pageSize : Int))).toNat = 0
      ∨ userSpace
        < (BitVec.ofInt 64 ((n + 1) * (kern.pageSize : Int))).toNat := by
    have huser : userSpace = 2 ^ 47 := rfl
    rw [BitVec.toNat_ofInt, huser]
    generalize (n + 1) * (kern.pageSize : Int) = x at *
    omega
  unfold coroInit
  simp only
  rw [hceil, ok_bind, int_ok (by omega) (by omega), ok_bind,
    int_ok (by omega) (by omega), ok_bind]
  unfold mapStack
  simp only
  rw [mmap_absurd hlen]

-- =================================================================== calls

/-- What a program may ask for: any size with which it does not overflow
or write to the guard page, and a structure for one coroutine at a
time. -/
def CoroCall.Valid (kern : Kernel) (s : State) : CoroCall → Prop
  | init k _ _ size =>
      s.coros k = none ∧ (SizeOk kern size ∨ SizeRefused kern size
        ∨ GuardRefused kern s.vm size)
  | fini k => s.coros k ≠ none

instance (kern : Kernel) (s : State) :
    (c : CoroCall) → Decidable (c.Valid kern s)
  | .init k _ _ size => inferInstanceAs
      (Decidable (s.coros k = none
        ∧ (SizeOk kern size ∨ SizeRefused kern size
          ∨ GuardRefused kern s.vm size)))
  | .fini k => inferInstanceAs (Decidable (¬ s.coros k = none))

/-- A coroutine's stack: at least as large as was asked for, above a page
that may not be touched. -/
structure Stack (kern : Kernel) (start ptr : Addr) (v : Vm) (m : Made) :
    Prop where
  laid : Laid kern m.coro
  room : m.stackSize + kern.pageSize ≤ m.coro.stackAllocSize
  guard : v.pages (m.coro.first kern) = some .none
  stack : ∀ p, m.coro.first kern < p → m.coro.Has kern p →
    v.pages p = some .readWrite
  aligned : m.coro.sp.toNat % 16 = 8
  frame : Frame start ptr m.arg v.mem m.coro

/-- A program's coroutines, and what else is mapped: what was before. -/
structure Stacks (kern : Kernel) (start : Addr) (ptr : Nat → Addr)
    (boot : Vm) (s : State) : Prop where
  made : ∀ k m, s.coros k = some m → Stack kern start (ptr k) s.vm m
  own : ∀ p j k m m', s.coros j = some m → s.coros k = some m' →
    m.coro.Has kern p → m'.coro.Has kern p → j = k
  fresh : ∀ p k m, s.coros k = some m → m.coro.Has kern p →
    boot.pages p = none
  others : ∀ p, (∀ k m, s.coros k = some m → ¬ m.coro.Has kern p) →
    s.vm.pages p = boot.pages p
  kept : KeepsMem kern boot s.vm

variable {m : Made}

/-- The words a coroutine starts with are in a page of its own. -/
theorem Laid.frame (h : Laid kern c) (hk : 5 ≤ kern.k) {m m' : ByteMem}
    (hm : Agree ((c.first kern + c.count kern - 1) * kern.pageSize,
      kern.pageSize) m m') (hf : Frame start ptr arg m c) :
    Frame start ptr arg m' c := by
  have hle : 2 ^ 5 ≤ kern.pageSize := Nat.pow_le_pow_right (by omega) hk
  have huser : userSpace = 2 ^ 47 := rfl
  have hsp := h.sp
  have hspace := h.space
  have hcount := h.count
  have hlast : (c.first kern + c.count kern) * kern.pageSize
      = (c.first kern + c.count kern - 1) * kern.pageSize
        + kern.pageSize := by
    rw [← Nat.add_one_mul, Nat.sub_add_cancel (by omega)]
  obtain ⟨h8, h16⟩ := @toNat_words c.sp (by omega)
  have hword : ∀ a : Addr, c.sp.toNat ≤ a.toNat →
      a.toNat + 8 ≤ c.sp.toNat + 24 → m'.load64 a = m.load64 a := by
    intro a hlo hhi
    exact (hm.mono (show _ ≤ a.toNat by omega)
      (show a.toNat + 8 ≤ _ + _ by omega)).load64
  obtain ⟨hstart, hptr, harg⟩ := hf
  refine ⟨?_, ?_, ?_⟩
  · rw [hword c.sp (by omega) (by omega), hstart]
  · rw [hword (c.sp + 8) (by omega) (by omega), hptr]
  · rw [hword (c.sp + 16) (by omega) (by omega), harg]

/-- The pages of a stack are mapped. -/
theorem Stack.mapped (h : Stack kern start ptr v m) {p : Nat}
    (hp : m.coro.Has kern p) : v.pages p ≠ none := by
  obtain heq | hlt := Nat.eq_or_lt_of_le hp.1
  · rw [← heq, h.guard]
    exact Option.some_ne_none _
  · rw [h.stack p hlt hp]
    exact Option.some_ne_none _

/-- A stack survives what changes none of its pages. -/
theorem Stack.congr (h : Stack kern start ptr v m) (hk : 5 ≤ kern.k)
    (hpages : ∀ p, m.coro.Has kern p → v'.pages p = v.pages p)
    (hmem : KeepsMem kern v v') : Stack kern start ptr v' m := by
  have hcount := h.laid.count
  have hfirst : m.coro.Has kern (m.coro.first kern) :=
    ⟨Nat.le_refl _, by omega⟩
  have hlast : m.coro.Has kern
      (m.coro.first kern + m.coro.count kern - 1) := ⟨by omega, by omega⟩
  refine ⟨h.laid, h.room, ?_, fun p hlo hp => ?_, h.aligned, ?_⟩
  · rw [hpages _ hfirst, h.guard]
  · rw [hpages p hp, h.stack p hlo hp]
  · exact h.laid.frame hk (hmem _ (h.mapped hlast)) h.frame

/-- A stack that has just been made. -/
theorem Born.stack_of (h : Born kern start ptr arg size v v' c)
    (hk : 5 ≤ kern.k) : Stack kern start ptr v' ⟨c, arg, size⟩ := by
  have hpow : kern.pageSize = 2 ^ (kern.k - 5) * 32 := by
    unfold Kernel.pageSize
    rw [show 32 = 2 ^ 5 from rfl, ← Nat.pow_add, Nat.sub_add_cancel hk]
  refine ⟨h.laid, h.room, h.guard, h.stack, ?_, h.frame⟩
  have hsp := h.laid.sp
  rw [hpow, ← Nat.mul_assoc] at hsp
  show c.sp.toNat % 16 = 8
  omega

variable {ptr' : Nat → Addr} {boot : Vm} {s : State} {k : Nat}

/-- A page that is mapped was so before, or is a coroutine's. -/
theorem Stacks.unmapped (h : Stacks kern start ptr' boot s) {p : Nat}
    (hp : s.vm.pages p = none) : boot.pages p = none := by
  rw [← h.others p fun k m hm hin => (h.made k m hm).mapped hin hp]
  exact hp

/-- What was mapped is not a coroutine's. -/
theorem Stacks.boot_kept (h : Stacks kern start ptr' boot s) {p : Nat}
    (hp : boot.pages p ≠ none) : s.vm.pages p = boot.pages p :=
  h.others p fun _ _ hm hin => hp (h.fresh p _ _ hm hin)

/-- The system has refused. -/
theorem Stacks.refused (h : Stacks kern start ptr' boot s)
    (hk : 5 ≤ kern.k) (hpages : v'.pages = s.vm.pages)
    (hmem : KeepsMem kern s.vm v') :
    Stacks kern start ptr' boot { s with vm := v' } := by
  refine ⟨fun k m hm => (h.made k m hm).congr hk
    (fun p _ => by rw [hpages]) hmem, h.own, h.fresh, fun p hp => ?_,
    fun p hp => ?_⟩
  · show v'.pages p = _
    rw [hpages]
    exact h.others p hp
  · refine (h.kept p hp).trans (hmem p ?_)
    rw [h.boot_kept hp]
    exact hp

/-- A coroutine is made. -/
theorem Stacks.born (h : Stacks kern start ptr' boot s) (hk : 5 ≤ kern.k)
    (hnone : s.coros k = none) (hmem : KeepsMem kern s.vm v')
    (hb : Born kern start (ptr' k) arg size s.vm v' c) :
    Stacks kern start ptr' boot
      ⟨v', Function.update s.coros k (some ⟨c, arg, size⟩)⟩ := by
  have hcases : ∀ j m, Function.update s.coros k (some ⟨c, arg, size⟩) j
      = some m → (j = k ∧ m = ⟨c, arg, size⟩) ∨ s.coros j = some m := by
    intro j m hm
    by_cases hj : j = k
    · subst hj
      rw [Function.update_self] at hm
      exact .inl ⟨rfl, (Option.some.inj hm).symm⟩
    · rw [Function.update_of_ne hj] at hm
      exact .inr hm
  -- the new pages were no one's
  have hapart : ∀ j m p, s.coros j = some m → m.coro.Has kern p →
      ¬ c.Has kern p := fun j m p hm hp hc =>
    (h.made j m hm).mapped hp (hb.fresh p hc)
  refine ⟨fun j m hm => ?_, fun p i j m m' hm hm' hp hp' => ?_,
    fun p j m hm hp => ?_, fun p hp => ?_, fun p hp => ?_⟩
  · obtain ⟨rfl, rfl⟩ | hm := hcases j m hm
    · exact hb.stack_of hk
    · exact (h.made j m hm).congr hk
        (fun p hp => hb.others p (hapart j m p hm hp)) hmem
  · obtain ⟨rfl, rfl⟩ | hold := hcases i m hm
    · obtain ⟨rfl, rfl⟩ | hold' := hcases j m' hm'
      · rfl
      · exact absurd hp (hapart j m' p hold' hp')
    · obtain ⟨rfl, rfl⟩ | hold' := hcases j m' hm'
      · exact absurd hp' (hapart i m p hold hp)
      · exact h.own p i j m m' hold hold' hp hp'
  · obtain ⟨rfl, rfl⟩ | hm := hcases j m hm
    · exact h.unmapped (hb.fresh p hp)
    · exact h.fresh p j m hm hp
  · have hc : ¬ c.Has kern p :=
      hp k ⟨c, arg, size⟩ (Function.update_self _ _ _)
    show v'.pages p = _
    rw [hb.others p hc]
    refine h.others p fun j m hm hin => hp j m ?_ hin
    show Function.update s.coros k (some ⟨c, arg, size⟩) j = some m
    rw [Function.update_of_ne, hm]
    intro hj
    rw [hj, hnone] at hm
    cases hm
  · refine (h.kept p hp).trans (hmem p ?_)
    rw [h.boot_kept hp]
    exact hp

/-- `npr_coro_fini` unmaps a coroutine's pages. -/
theorem coroFini_pages (h : Laid kern c) (v : Vm) :
    coroFini kern v c = { v with
      pages := setPages v.pages (c.first kern) (c.count kern) none } := by
  have hpos := pageSize_pos kern
  have hcount := h.count
  have hsmall := h.small
  have hlen : (BitVec.ofInt 64 c.stackAllocSize).toNat
      = c.count kern * kern.pageSize := by
    rw [h.size]
    exact toNat_ofInt (by omega)
  have hsize : 0 < c.count kern * kern.pageSize :=
    Nat.mul_pos (by omega) hpos
  unfold coroFini munmap
  rw [h.top, hlen, if_pos ⟨Nat.mul_mod_left _ _, hsize⟩, pagesOf_mul,
    Nat.mul_div_cancel _ hpos]

/-- A coroutine is taken down. -/
theorem Stacks.fini (h : Stacks kern start ptr' boot s) (hk : 5 ≤ kern.k)
    (hm : s.coros k = some m) :
    Stacks kern start ptr' boot ⟨coroFini kern s.vm m.coro,
      Function.update s.coros k none⟩ := by
  have hpages := coroFini_pages (h.made k m hm).laid s.vm
  have hold : ∀ j m', Function.update s.coros k none j = some m' →
      j ≠ k ∧ s.coros j = some m' := by
    intro j m' hm'
    by_cases hj : j = k
    · rw [hj, Function.update_self] at hm'
      cases hm'
    · rw [Function.update_of_ne hj] at hm'
      exact ⟨hj, hm'⟩
  have hout : ∀ p, ¬ m.coro.Has kern p →
      (coroFini kern s.vm m.coro).pages p = s.vm.pages p := by
    intro p hp
    unfold Coro.Has at hp
    rw [hpages]
    exact PageTable.setPages_out (by omega)
  have hmem : ∀ p, Agree (p * kern.pageSize, kern.pageSize) s.vm.mem
      (coroFini kern s.vm m.coro).mem := fun p => by
    rw [hpages]
    exact Agree.refl _ _
  refine ⟨fun j m' hm' => ?_, fun p i j m₁ m₂ h₁ h₂ => ?_,
    fun p j m' hm' => ?_, fun p hp => ?_, fun p hp => ?_⟩
  · obtain ⟨hj, hm'⟩ := hold j m' hm'
    exact (h.made j m' hm').congr hk
      (fun p hp => hout p fun hin => hj (h.own p j k m' m hm' hm hp hin))
      (fun p _ => hmem p)
  · exact h.own p i j m₁ m₂ (hold i m₁ h₁).2 (hold j m₂ h₂).2
  · exact h.fresh p j m' (hold j m' hm').2
  · by_cases hin : m.coro.Has kern p
    · show (coroFini kern s.vm m.coro).pages p = _
      rw [hpages, h.fresh p k m hm hin]
      exact PageTable.setPages_in hin.1 hin.2
    · refine (hout p hin).trans (h.others p fun j m' hm' hp' => ?_)
      by_cases hj : j = k
      · rw [hj, hm] at hm'
        obtain rfl := Option.some.inj hm'
        exact hin hp'
      · refine hp j m' ?_ hp'
        show Function.update s.coros k none j = some m'
        rw [Function.update_of_ne hj, hm']
  · exact (h.kept p hp).trans (hmem p)

-- ==================================================================== runs

/-- One call. -/
theorem Stacks.exec (h : Stacks kern start ptr' boot s) (hk : 5 ≤ kern.k)
    (hk' : kern.k ≤ 30) {call : CoroCall} (hcall : call.Valid kern s) :
    ∃ s', call.exec kern start ptr' s = .ok s'
      ∧ Stacks kern start ptr' boot s' := by
  cases call with
  | init k entry arg size =>
      obtain ⟨hnone, hsize | hsize | hsize⟩ := hcall
      · obtain ⟨v', r, hinit, hmem, hr⟩ :=
          coroInit_ok hk hsize start s.vm (ptr' k) entry arg
        simp only [CoroCall.exec]
        rw [hinit, ok_bind]
        obtain ⟨rfl, hpages⟩ | ⟨c, rfl, hb⟩ := hr
        · exact ⟨_, rfl, h.refused hk hpages hmem⟩
        · exact ⟨_, rfl, h.born hk hnone hmem hb⟩
      · simp only [CoroCall.exec]
        rw [coroInit_refused hk' hsize, ok_bind]
        exact ⟨_, rfl, h.refused hk rfl fun _ _ => Agree.refl _ _⟩
      · obtain ⟨hlo, hhi, hnot⟩ := hsize
        obtain ⟨hgranted, -⟩ | ⟨-, v', hinit, hpages, hmem⟩ :=
          coroInit_guard hk hk' hlo hhi start s.vm (ptr' k) entry arg
        · exact absurd hgranted hnot
        · simp only [CoroCall.exec]
          rw [hinit, ok_bind]
          exact ⟨_, rfl, h.refused hk hpages hmem⟩
  | fini k =>
      obtain ⟨m, hm⟩ := Option.ne_none_iff_exists'.mp hcall
      simp only [CoroCall.exec]
      rw [hm]
      exact ⟨_, rfl, h.fini hk hm⟩

/-- A run of calls: no coroutine touches another one's stack, nothing else
that is mapped changes, and no page is left when no coroutine is. A size of
no pages, and one that is too large, are not served. -/
theorem coro_stacks (hk : 5 ≤ kern.k) (hk' : kern.k ≤ 30) (start : Addr)
    (ptr : Nat → Addr) (boot : Vm) {cs : List CoroCall}
    (hcs : Along (CoroCall.exec kern start ptr) (fun s c => c.Valid kern s)
      ⟨boot, fun _ => none⟩ cs) :
    ∃ s, coroRun kern start ptr boot cs = .ok s
      ∧ Stacks kern start ptr boot s
      ∧ ((∀ k, s.coros k = none) → s.vm.pages = boot.pages)
      ∧ (∀ k m p x, s.coros k = some m →
          p.toNat / kern.pageSize = m.coro.first kern →
          put kern s.vm p x = .error .segv)
      ∧ ∀ k entry arg size,
        (2 ^ 31 - 2 * (kern.pageSize : Int) < size →
          coroInit kern start s.vm (ptr k) entry arg size
            = .error .intOverflow)
        ∧ (2 - 2 * (kern.pageSize : Int) ≤ size → size ≤ 0 →
          PageTable.Fresh kern s.vm (kern.place s.vm.calls) 1 →
          kern.grants (s.vm.calls + 1) = true →
          coroInit kern start s.vm (ptr k) entry arg size
            = .error .segv) := by
  have hboot : Stacks kern start ptr boot ⟨boot, fun _ => none⟩ := by
    refine ⟨fun _ _ hm => ?_, fun _ _ _ _ _ hm => ?_, fun _ _ _ hm => ?_,
      fun _ _ => rfl, fun _ _ => Agree.refl _ _⟩
    all_goals cases hm
  have hrun : Yields (fun _ => False) (coroRun kern start ptr boot cs)
      (Stacks kern start ptr boot) := by
    refine Along.yields (fun s c h hc => ?_) cs _ hboot hcs
    obtain ⟨s', hexec, h'⟩ := Stacks.exec h hk hk' hc
    rw [hexec]
    exact h'
  cases hs : coroRun kern start ptr boot cs with
  | error e => exact absurd (hrun.of_error hs) id
  | ok s =>
      have h := hrun.of_ok hs
      refine ⟨s, rfl, h, fun hnone => ?_, fun k m p x hm hp => ?_,
        fun k entry arg size => ⟨fun hlarge => ?_,
          fun hlo hhi hfresh hgrants => ?_⟩⟩
      · funext p
        refine h.others p fun k m hm => ?_
        rw [hnone k] at hm
        cases hm
      · have hpos := pageSize_pos kern
        have hguard := (h.made k m hm).guard
        have hnot : s.vm.pages (m.coro.first kern) ≠ some .readWrite := by
          rw [hguard]
          decide
        refine put_guard hnot ?_ ?_
        · rw [← hp]
          exact Nat.div_mul_le_self _ _
        · rw [← hp, Nat.mul_comm]
          exact Nat.lt_mul_div_succ _ hpos
      · exact coroInit_large hk' hlarge start s.vm (ptr k) entry arg
      · obtain ⟨-, hsegv⟩ | ⟨hnot, -⟩ :=
          coroInit_guard hk hk' hlo hhi start s.vm (ptr k) entry arg
        · exact hsegv
        · exact absurd ⟨hfresh, hgrants⟩ hnot

-- ============================================================== small runs

/-- A kernel with pages of 4096 bytes, which refuses its fourth request. -/
def everyMegabyte : Kernel where
  k := 12
  place n := 256 * (n + 1)
  grants n := n ≠ 3

/-- Two coroutines, of which the second is made at the second try, and the
end of the first. -/
def threeInits : List CoroCall :=
  [.init 0 0x400000 7 100, .init 1 0x400000 8 5000, .init 1 0x400000 8 5000,
    .fini 0]

theorem coro_stacks_three : ∃ s,
    coroRun everyMegabyte 0x401000 (fun _ => 0x601000)
        ⟨fun _ => none, ⟨fun _ => 0⟩, 0⟩ threeInits = .ok s
      ∧ Stacks everyMegabyte 0x401000 (fun _ => 0x601000)
        ⟨fun _ => none, ⟨fun _ => 0⟩, 0⟩ s := by
  have hcs : Along (CoroCall.exec everyMegabyte 0x401000 fun _ => 0x601000)
      (fun s c => c.Valid everyMegabyte s)
      ⟨⟨fun _ => none, ⟨fun _ => 0⟩, 0⟩, fun _ => none⟩ threeInits := by
    decide +kernel
  have hk : 5 ≤ everyMegabyte.k ∧ everyMegabyte.k ≤ 30 := by
    constructor <;> decide
  obtain ⟨s, hrun, hstacks, _⟩ := coro_stacks hk.1 hk.2 0x401000
    (fun _ => 0x601000) ⟨fun _ => none, ⟨fun _ => 0⟩, 0⟩ hcs
  exact ⟨s, hrun, hstacks⟩

end UdeBench.Npr.Coroutines
