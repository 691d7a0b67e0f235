/-
Rules of the machine: what a decoded word does, and what the transfers
of several registers store and load.

A word belongs to one diagram (`decodeOp_*`): each rule takes the
decoder of its own class and rules the classes before it out by the bits
the diagrams disagree in.

A push followed by the matching pop restores the registers, whatever
happened to memory outside the slots in between (`loadRegs_storeRegs`).
-/
import UdeBench.A32.Machine

namespace UdeBench.A32

open Bits

-- =========================================================== state updates

@[simp] theorem State.next_r (s : State) : s.next.r = s.r := rfl
@[simp] theorem State.next_d (s : State) : s.next.d = s.d := rfl
@[simp] theorem State.next_mem (s : State) : s.next.mem = s.mem := rfl
@[simp] theorem State.next_thumb (s : State) : s.next.thumb = s.thumb := rfl
@[simp] theorem State.next_pc (s : State) : s.next.pc = off s.pc 4 := rfl

@[simp] theorem State.setReg_d (s : State) (r : BitVec 4) (x : Word) :
    (s.setReg r x).d = s.d := rfl

@[simp] theorem State.setReg_mem (s : State) (r : BitVec 4) (x : Word) :
    (s.setReg r x).mem = s.mem := rfl

@[simp] theorem State.setReg_thumb (s : State) (r : BitVec 4) (x : Word) :
    (s.setReg r x).thumb = s.thumb := rfl

@[simp] theorem State.setReg_pc (s : State) (r : BitVec 4) (x : Word) :
    (s.setReg r x).pc = s.pc := rfl

@[simp] theorem State.setReg_self (s : State) (r : BitVec 4) (x : Word) :
    (s.setReg r x).r r = x := by
  simp [setReg]

theorem State.setReg_ne (s : State) {r r' : BitVec 4} (x : Word)
    (h : r' ≠ r) : (s.setReg r x).r r' = s.r r' := by
  simp [setReg, h]

@[simp] theorem State.setD_r (s : State) (v : BitVec 5) (x : BitVec 64) :
    (s.setD v x).r = s.r := rfl

@[simp] theorem State.setD_mem (s : State) (v : BitVec 5) (x : BitVec 64) :
    (s.setD v x).mem = s.mem := rfl

@[simp] theorem State.setD_thumb (s : State) (v : BitVec 5)
    (x : BitVec 64) : (s.setD v x).thumb = s.thumb := rfl

@[simp] theorem State.setD_pc (s : State) (v : BitVec 5) (x : BitVec 64) :
    (s.setD v x).pc = s.pc := rfl

@[simp] theorem State.setD_self (s : State) (v : BitVec 5)
    (x : BitVec 64) : (s.setD v x).d v = x := by
  simp [setD]

theorem State.setD_ne (s : State) {v v' : BitVec 5} (x : BitVec 64)
    (h : v' ≠ v) : (s.setD v x).d v' = s.d v' := by
  simp [setD, h]

-- ============================================================== addresses

@[simp] theorem off_zero (a : Word) : off a 0 = a := by
  simp [off]

theorem off_off (a : Word) (m n : Nat) : off (off a m) n = off a (m + n) := by
  unfold off
  rw [BitVec.add_assoc, ← BitVec.ofNat_add]

/-- Addresses less than 4 GiB apart are told apart. -/
theorem off_inj {a : Word} {m n : Nat} (hm : m < 2 ^ 32) (hn : n < 2 ^ 32)
    (h : off a m = off a n) : m = n := by
  have hval := congrArg BitVec.toNat h
  simp only [off, BitVec.toNat_add, BitVec.toNat_ofNat] at hval
  have ha := a.isLt
  omega

-- ========================================================= words in memory

/-- A word is its four bytes. -/
theorem load32_congr {m m' : Word → BitVec 8} {a : Word}
    (h : ∀ i, i < 4 → m' (off a i) = m (off a i)) :
    load32 m' a = load32 m a := by
  unfold load32
  rw [h 0 (by decide), h 1 (by decide), h 2 (by decide),
    h 3 (by decide)]

/-- The four bytes of a word, put together again. -/
theorem join_bytes (w : Word) :
    bits w 24 8 ++ bits w 16 8 ++ bits w 8 8 ++ bits w 0 8 = w := by
  unfold bits
  rw [BitVec.extractLsb'_append_extractLsb'_eq_extractLsb'
      (show 24 = 16 + 8 by decide),
    BitVec.extractLsb'_append_extractLsb'_eq_extractLsb'
      (show 16 = 8 + 8 by decide),
    BitVec.extractLsb'_append_extractLsb'_eq_extractLsb'
      (show 8 = 0 + 8 by decide)]
  exact BitVec.extractLsb'_eq_self

/-- The word just stored. -/
theorem load32_store32 (m : Word → BitVec 8) (a w : Word) :
    load32 (store32 m a w) a = w := by
  have hne : ∀ i j, i < 4 → j < 4 → i ≠ j → off a i ≠ off a j :=
    fun i j hi hj hij h => hij (off_inj (by omega) (by omega) h)
  unfold load32 store32
  simp only [if_true, if_neg (hne 1 0 (by decide) (by decide) (by decide)),
    if_neg (hne 2 0 (by decide) (by decide) (by decide)),
    if_neg (hne 2 1 (by decide) (by decide) (by decide)),
    if_neg (hne 3 0 (by decide) (by decide) (by decide)),
    if_neg (hne 3 1 (by decide) (by decide) (by decide)),
    if_neg (hne 3 2 (by decide) (by decide) (by decide))]
  exact join_bytes w

/-- A store touches its four bytes only. -/
theorem store32_frame {m : Word → BitVec 8} {a w b : Word}
    (h : ∀ i, i < 4 → b ≠ off a i) : store32 m a w b = m b := by
  unfold store32
  rw [if_neg (h 0 (by decide)), if_neg (h 1 (by decide)),
    if_neg (h 2 (by decide)), if_neg (h 3 (by decide))]

-- ==================================================== several registers

/-- The slots of `n` registers from an address keep a byte outside. -/
theorem storeRegs_frame {m : Word → BitVec 8} {r : BitVec 4 → Word}
    {b : Word} :
    ∀ (xs : List (BitVec 4)) (a : Word),
      (∀ i, i < 4 * xs.length → b ≠ off a i) →
      storeRegs m r a xs b = m b := by
  intro xs
  induction xs with
  | nil => intro a _; rfl
  | cons x xs ih =>
      intro a h
      rw [List.length_cons] at h
      rw [storeRegs, store32_frame fun i hi => h i (by omega)]
      refine ih (off a 4) fun i hi => ?_
      rw [off_off]
      exact h (4 + i) (by omega)

/-- The slot of each register holds it. -/
theorem load32_storeRegs {m : Word → BitVec 8} {r : BitVec 4 → Word} :
    ∀ (xs : List (BitVec 4)) (a : Word) (j : Nat) (x : BitVec 4),
      4 * xs.length ≤ 2 ^ 32 → xs[j]? = some x →
      load32 (storeRegs m r a xs) (off a (4 * j)) = r x := by
  intro xs
  induction xs with
  | nil => intro a j x _ hx; cases hx
  | cons y xs ih =>
      intro a j x hlen hx
      rw [List.length_cons] at hlen
      cases j with
      | zero =>
          cases hx
          rw [storeRegs, Nat.mul_zero, off_zero, load32_store32]
      | succ j =>
          rw [List.getElem?_cons_succ] at hx
          have hj := (List.getElem?_eq_some_iff.mp hx).1
          have hrest := ih (off a 4) j x (by omega) hx
          rw [off_off, Nat.add_comm, ← Nat.mul_succ] at hrest
          rw [← hrest, storeRegs]
          apply load32_congr
          intro i hi
          apply store32_frame
          intro k hk heq
          rw [off_off] at heq
          have hik := off_inj (by omega) (by omega) heq
          omega

/-- A register outside the list is not loaded. -/
theorem loadRegs_of_not_mem {m : Word → BitVec 8} {r : BitVec 4 → Word}
    {x : BitVec 4} :
    ∀ (xs : List (BitVec 4)) (a : Word), x ∉ xs →
      loadRegs m r a xs x = r x := by
  intro xs
  induction xs with
  | nil => intro a _; rfl
  | cons y xs ih =>
      intro a hx
      have hne : x ≠ y := by
        rintro rfl
        exact hx List.mem_cons_self
      rw [loadRegs, Function.update_of_ne hne]
      exact ih _ fun hmem => hx (List.mem_cons_of_mem _ hmem)

/-- A register of the list is loaded from its slot. -/
theorem loadRegs_getElem {m : Word → BitVec 8} {r : BitVec 4 → Word} :
    ∀ (xs : List (BitVec 4)) (a : Word) (j : Nat) (x : BitVec 4),
      xs.Nodup → xs[j]? = some x →
      loadRegs m r a xs x = load32 m (off a (4 * j)) := by
  intro xs
  induction xs with
  | nil => intro a j x _ hx; cases hx
  | cons y xs ih =>
      intro a j x hnd hx
      rw [List.nodup_cons] at hnd
      cases j with
      | zero =>
          cases hx
          rw [loadRegs, Function.update_self, Nat.mul_zero, off_zero]
      | succ j =>
          rw [List.getElem?_cons_succ] at hx
          have hne : x ≠ y := by
            rintro rfl
            exact hnd.1 (List.mem_of_getElem? hx)
          rw [loadRegs, Function.update_of_ne hne,
            ih (off a 4) j x hnd.2 hx, off_off, Nat.add_comm,
            ← Nat.mul_succ]

/-- What was stored is loaded again from slots nobody wrote. -/
theorem loadRegs_storeRegs {m m' : Word → BitVec 8}
    {r r' : BitVec 4 → Word} {xs : List (BitVec 4)} {a : Word}
    (hlen : 4 * xs.length ≤ 2 ^ 32) (hnd : xs.Nodup)
    (hkeep : ∀ i, i < 4 * xs.length →
      m' (off a i) = storeRegs m r a xs (off a i))
    {x : BitVec 4} (hx : x ∈ xs) : loadRegs m' r' a xs x = r x := by
  obtain ⟨j, hj⟩ := List.mem_iff_getElem?.mp hx
  have hjlt := (List.getElem?_eq_some_iff.mp hj).1
  rw [loadRegs_getElem xs a j x hnd hj,
    ← load32_storeRegs (m := m) (r := r) xs a j x hlen hj]
  apply load32_congr
  intro i hi
  rw [off_off]
  exact hkeep _ (by omega)

-- ============================================================ one class each

/-- A window's value, as arithmetic on the word. -/
theorem toNat_of_bits {w : Word} {lo len : Nat} {x : BitVec len}
    (h : bits w lo len = x) : w.toNat / 2 ^ lo % 2 ^ len = x.toNat := by
  rw [← h, toNat_bits]

/-- A data processing word is no other class's. -/
theorem decodeOp_dpImm {w : Word} {i : DpImm} (h : decodeDpImm w = some i) :
    decodeOp w = (opOfDpImm i).map (i.cond, ·) := by
  have hbx : decodeBx w = none := by
    unfold decodeDpImm at h
    unfold decodeBx
    split at h
    · next hc =>
      have hclass : w.toNat / 2 ^ 25 % 2 ^ 3 = 0b001 := toNat_of_bits hc.2.1
      rw [if_neg]
      rintro ⟨-, hb⟩
      have hbits : w.toNat / 2 ^ 4 % 2 ^ 24 = 0x12fff1 := toNat_of_bits hb
      omega
    · cases h
  unfold decodeOp
  rw [hbx, h]

/-- A load or store word is no other class's. -/
theorem decodeOp_loadStore {w : Word} {i : LoadStore}
    (h : decodeLoadStore w = some i) :
    decodeOp w = (opOfLoadStore i).map (i.cond, ·) := by
  have hnot : decodeBx w = none ∧ decodeDpImm w = none := by
    unfold decodeLoadStore at h
    unfold decodeBx decodeDpImm
    split at h
    · next hc =>
      have hclass : w.toNat / 2 ^ 26 % 2 ^ 2 = 0b01 := toNat_of_bits hc.2.1
      rw [if_neg, if_neg]
      · exact ⟨rfl, rfl⟩
      · rintro ⟨-, hb, -⟩
        have hbits : w.toNat / 2 ^ 25 % 2 ^ 3 = 0b001 := toNat_of_bits hb
        omega
      · rintro ⟨-, hb⟩
        have hbits : w.toNat / 2 ^ 4 % 2 ^ 24 = 0x12fff1 :=
          toNat_of_bits hb
        omega
    · cases h
  unfold decodeOp
  rw [hnot.1, hnot.2, h]

/-- A branch word is no other class's. -/
theorem decodeOp_branch {w : Word} {i : Branch}
    (h : decodeBranch w = some i) :
    decodeOp w = some (i.cond, .b i.link i.imm24) := by
  have hnot : decodeBx w = none ∧ decodeDpImm w = none
      ∧ decodeLoadStore w = none ∧ decodeBlock w = none := by
    unfold decodeBranch at h
    unfold decodeBx decodeDpImm decodeLoadStore decodeBlock
    split at h
    · next hc =>
      have hclass : w.toNat / 2 ^ 25 % 2 ^ 3 = 0b101 := toNat_of_bits hc.2
      rw [if_neg, if_neg, if_neg, if_neg]
      · exact ⟨rfl, rfl, rfl, rfl⟩
      · rintro ⟨-, hb⟩
        have hbits : w.toNat / 2 ^ 25 % 2 ^ 3 = 0b100 := toNat_of_bits hb
        omega
      · rintro ⟨-, hb, -⟩
        have hbits : w.toNat / 2 ^ 26 % 2 ^ 2 = 0b01 := toNat_of_bits hb
        omega
      · rintro ⟨-, hb, -⟩
        have hbits : w.toNat / 2 ^ 25 % 2 ^ 3 = 0b001 := toNat_of_bits hb
        omega
      · rintro ⟨-, hb⟩
        have hbits : w.toNat / 2 ^ 4 % 2 ^ 24 = 0x12fff1 :=
          toNat_of_bits hb
        omega
    · cases h
  obtain ⟨hbx, hdp, hls, hblk⟩ := hnot
  unfold decodeOp
  rw [hbx, hdp, hls, hblk, h]

-- ============================================================== alignment

/-- An address is word-aligned when its low two bits are clear. -/
theorem aligned_iff (a : Word) : a &&& 3#32 = 0#32 ↔ a.toNat % 4 = 0 := by
  have hmask : (a &&& 3#32).toNat = a.toNat % 4 :=
    toNat_and_mask a (k := 2) (by decide)
  constructor
  · intro h
    rw [← hmask, h]
    rfl
  · intro h
    apply BitVec.eq_of_toNat_eq
    rw [hmask, h]
    rfl

/-- Aligning an aligned address changes nothing. -/
theorem align_eq {a : Word} (h : a &&& 3#32 = 0#32) :
    a &&& ~~~3#32 = a := by
  have hall : (3#32 ||| ~~~3#32 : Word) = BitVec.allOnes 32 := by decide
  calc a &&& ~~~3#32 = (a &&& 3#32) ||| (a &&& ~~~3#32) := by
        rw [h, BitVec.zero_or]
    _ = a &&& (3#32 ||| ~~~3#32) := by rw [BitVec.and_or_distrib_left]
    _ = a := by rw [hall, BitVec.and_allOnes]

/-- Whole words past an aligned address are aligned. -/
theorem aligned_off {a : Word} (h : a &&& 3#32 = 0#32) (n : Nat) :
    off a (4 * n) &&& 3#32 = 0#32 := by
  rw [aligned_iff] at h ⊢
  rw [off, BitVec.toNat_add, BitVec.toNat_ofNat]
  omega

-- ======================================================== code in memory

/-- The address of the word with index `i` of an image. -/
def site (base : Word) (i : Nat) : Word := off base (4 * i)

/-- The address of the next word. -/
theorem site_succ (base : Word) (i : Nat) :
    off (site base i) 4 = site base (i + 1) := by
  rw [site, off_off, site, Nat.mul_succ]

/-- Words of an image are told apart by their addresses. -/
theorem site_inj {base : Word} {i j : Nat} (hi : 4 * i < 2 ^ 32)
    (hj : 4 * j < 2 ^ 32) (h : site base i = site base j) : i = j := by
  have hij := off_inj hi hj h
  omega

/-- The image is in memory. -/
def Loaded (image : List Word) (base : Word) (mem : Word → BitVec 8) :
    Prop :=
  ∀ i w, image[i]? = some w → load32 mem (site base i) = w

/-- Memory that agrees on the image's bytes holds it too. -/
theorem Loaded.congr {image : List Word} {base : Word}
    {m m' : Word → BitVec 8} (h : Loaded image base m)
    (hkeep : ∀ j, j < 4 * image.length → m' (off base j) = m (off base j)) :
    Loaded image base m' := by
  intro i w hw
  have hlt := (List.getElem?_eq_some_iff.mp hw).1
  rw [← h i w hw]
  apply load32_congr
  intro j hj
  rw [site, off_off]
  exact hkeep _ (by omega)

/-- A memory that holds the image at `base` and zeros elsewhere. -/
def memOf (image : List Word) (base : Word) : Word → BitVec 8 := fun a =>
  bits (image.getD ((a - base).toNat / 4) 0) (8 * ((a - base).toNat % 4)) 8

theorem loaded_memOf {image : List Word} (base : Word)
    (hlen : 4 * image.length ≤ 2 ^ 32) :
    Loaded image base (memOf image base) := by
  intro i w hw
  have hlt := (List.getElem?_eq_some_iff.mp hw).1
  have hbyte : ∀ j, j < 4 →
      memOf image base (off (site base i) j) = bits w (8 * j) 8 := by
    intro j hj
    have haddr : (off (site base i) j - base).toNat = 4 * i + j := by
      rw [site, off_off, off, BitVec.add_comm, BitVec.add_sub_cancel,
        BitVec.toNat_ofNat]
      omega
    have hword : (4 * i + j) / 4 = i := by omega
    have hpos : (4 * i + j) % 4 = j := by omega
    unfold memOf
    rw [haddr, hword, hpos, List.getD_eq_getElem?_getD, hw, Option.getD_some]
  unfold load32
  rw [hbyte 0 (by decide), hbyte 1 (by decide), hbyte 2 (by decide),
    hbyte 3 (by decide)]
  exact join_bytes w

/-- About to execute the word with index `i`, in A32 state. -/
structure At (image : List Word) (base : Word) (i : Nat) (s : State) :
    Prop where
  pc : s.pc = site base i
  thumb : s.thumb = false
  loaded : Loaded image base s.mem

/-- On to the next word, the memory kept. -/
theorem At.advance {image : List Word} {base : Word} {i : Nat}
    {s s' : State} (h : At image base i s) (hpc : s'.pc = off s.pc 4)
    (hthumb : s'.thumb = s.thumb) (hmem : s'.mem = s.mem) :
    At image base (i + 1) s' := by
  refine ⟨?_, ?_, ?_⟩
  · rw [hpc, h.pc, site_succ]
  · rw [hthumb, h.thumb]
  · rw [hmem]
    exact h.loaded

/-- The word there is the one executed. -/
theorem At.step_eq {image : List Word} {base : Word} {i : Nat} {s : State}
    {w : Word} (h : At image base i s) (hw : image[i]? = some w)
    (other : Word → State → Option State) : step other s = exec other w s := by
  unfold step
  rw [h.thumb, h.pc, h.loaded i w hw]
  rfl

/-- An unconditional instruction of the machine. -/
theorem At.step_op {image : List Word} {base : Word} {i : Nat} {s : State}
    {w : Word} {op : Op} (h : At image base i s) (hw : image[i]? = some w)
    (hop : decodeOp w = some (0xe, op))
    (other : Word → State → Option State) : step other s = execOp s op := by
  rw [h.step_eq hw, exec, hop]
  rfl

end UdeBench.A32
