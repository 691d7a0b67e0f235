/-
The table counts ones, and `npr_find_bit_idx32` numbers the ones of a word
from the lowest on.

`Nat.count` over the bits of a word is the specification: a count by the
table is the sum of four bytes' counts (`toNat_popcnt32`), and the number
of a bit is the count of the bits below it (`toNat_findBitIdx32`).
-/
import Mathlib.Data.Nat.Nth
import UdeBench.Npr.BitOps

namespace UdeBench.Npr.BitOps

-- =================================================================== counts

/-- The ones among the first bits of a word. -/
def ones {w : Nat} (v : BitVec w) (n : Nat) : Nat :=
  Nat.count (fun i => v.getLsbD i = true) n

/-- A count depends on the bits that are counted. -/
theorem count_congr {p q : Nat → Prop} [DecidablePred p] [DecidablePred q]
    {n : Nat} (h : ∀ i < n, p i ↔ q i) : Nat.count p n = Nat.count q n := by
  apply Nat.le_antisymm
  · exact Nat.count_mono_left fun i hi => (h i hi).mp
  · exact Nat.count_mono_left fun i hi => (h i hi).mpr

/-- Every number below a count is the count of something. -/
theorem exists_count {p : Nat → Prop} [DecidablePred p] {n i : Nat}
    (h : i < Nat.count p n) : ∃ q < n, p q ∧ Nat.count p q = i := by
  have hcard : ∀ hf : (Set.ofPred p).Finite, i < hf.toFinset.card :=
    fun hf => Nat.lt_of_lt_of_le h (Nat.count_le_card hf n)
  exact ⟨Nat.nth p i, Nat.nth_lt_of_lt_count h, Nat.nth_mem i hcard,
    Nat.count_nth hcard⟩

-- ==================================================================== table

/-- The table has the counts of the bytes. -/
theorem popcntTbl_getD : ∀ b < 256,
    popcntTbl.getD b 0 = Nat.count (fun i => b.testBit i = true) 8 := by
  decide +kernel

/-- What the table says of a byte of a word. -/
theorem toNat_popcntAt {v b : UInt} {lo : Nat} (hb : b.toNat < 256)
    (hbits : ∀ i < 8, b.getLsbD i = v.getLsbD (lo + i)) :
    (popcntAt b).toNat
      = Nat.count (fun i => v.getLsbD (lo + i) = true) 8 := by
  have hcount : popcntTbl.getD b.toNat 0
      = Nat.count (fun i => v.getLsbD (lo + i) = true) 8 := by
    rw [popcntTbl_getD _ hb]
    refine count_congr fun i hi => ?_
    rw [← hbits i hi]
    rfl
  have hle : Nat.count (fun i => v.getLsbD (lo + i) = true) 8 ≤ 8 :=
    Nat.count_le _
  unfold popcntAt
  rw [hcount, BitVec.toNat_ofNat]
  exact Nat.mod_eq_of_lt (by omega)

/-- A byte of a word. -/
theorem byte_bits (v : UInt) (lo : Nat) :
    ((v >>> lo) &&& 0xff).toNat < 256
      ∧ ∀ i < 8, ((v >>> lo) &&& 0xff).getLsbD i = v.getLsbD (lo + i) := by
  constructor
  · rw [BitVec.toNat_and]
    exact Nat.lt_of_le_of_lt Nat.and_le_right (by decide)
  · intro i hi
    have hmask : (0xff : UInt).getLsbD i = true := by
      revert i
      decide
    rw [BitVec.getLsbD_and, hmask, Bool.and_true, BitVec.getLsbD_ushiftRight]

/-- The count of a word. -/
theorem toNat_popcnt32 (v : UInt) : (popcnt32 v).toNat = ones v 32 := by
  have htop : (v >>> 24).toNat < 256
      ∧ ∀ i < 8, (v >>> 24).getLsbD i = v.getLsbD (24 + i) := by
    constructor
    · rw [BitVec.toNat_ushiftRight, Nat.shiftRight_eq_div_pow]
      have hlt := v.isLt
      omega
    · intro i _
      rw [BitVec.getLsbD_ushiftRight]
  have h3 := toNat_popcntAt htop.1 htop.2
  have h2 := toNat_popcntAt (byte_bits v 16).1 (byte_bits v 16).2
  have h1 := toNat_popcntAt (byte_bits v 8).1 (byte_bits v 8).2
  have h0 := toNat_popcntAt (byte_bits v 0).1 (byte_bits v 0).2
  have hsum : ones v 32
      = Nat.count (fun i => v.getLsbD (0 + i) = true) 8
        + Nat.count (fun i => v.getLsbD (8 + i) = true) 8
        + Nat.count (fun i => v.getLsbD (16 + i) = true) 8
        + Nat.count (fun i => v.getLsbD (24 + i) = true) 8 := by
    show Nat.count _ (8 + 8 + 8 + 8) = _
    rw [Nat.count_add, Nat.count_add, Nat.count_add]
    simp only [Nat.zero_add]
  have hle : ∀ lo, Nat.count (fun i => v.getLsbD (lo + i) = true) 8 ≤ 8 :=
    fun lo => Nat.count_le _
  have hle0 := hle 0
  have hle1 := hle 8
  have hle2 := hle 16
  have hle3 := hle 24
  unfold popcnt32
  rw [BitVec.toNat_add, BitVec.toNat_add, BitVec.toNat_add, h0, h1, h2, h3,
    hsum]
  omega

/-- The heap's count is this one. -/
theorem heap_popcnt32 (v : UInt) :
    FirstFit.popcnt32 v = (popcnt32 v).toNat := by
  rw [toNat_popcnt32]
  unfold FirstFit.popcnt32 ones Nat.count
  simp

-- ================================================================== numbers

/-- The bits below a position. -/
theorem below_bits {pos : Nat} (hpos : pos < 32) (i : Nat) :
    ((1 : UInt) <<< pos - 1).getLsbD i = decide (i < pos) := by
  have hlt : 2 ^ pos < 2 ^ 32 := Nat.pow_lt_pow_right (by omega) hpos
  have hone : ((1 : UInt) <<< pos).toNat = 2 ^ pos := by
    rw [BitVec.toNat_shiftLeft]
    show 1 <<< pos % 2 ^ 32 = _
    rw [Nat.one_shiftLeft]
    exact Nat.mod_eq_of_lt hlt
  have hsub : ((1 : UInt) <<< pos - 1).toNat = 2 ^ pos - 1 := by
    rw [BitVec.toNat_sub_of_le, hone]
    · rfl
    · rw [BitVec.le_def, hone]
      exact Nat.one_le_two_pow
  show Nat.testBit _ i = _
  rw [hsub, Nat.testBit_two_pow_sub_one]

/-- The number of a bit is the count of those below it. -/
theorem toNat_findBitIdx32 (bits : UInt) {pos : UInt} (hpos : pos.toNat < 32) :
    (findBitIdx32 bits pos).toNat = ones bits pos.toNat := by
  unfold findBitIdx32 findBitIdx32Keymask
  rw [toNat_popcnt32]
  obtain ⟨n, hn⟩ := Nat.exists_eq_add_of_le (Nat.le_of_lt hpos)
  have habove : Nat.count (fun i => (((1 : UInt) <<< pos.toNat - 1)
      &&& bits).getLsbD (pos.toNat + i) = true) n = 0 := by
    refine Nat.count_iff_forall_not.mpr fun i _ => ?_
    rw [BitVec.getLsbD_and, below_bits hpos]
    simp
  have hsplit : ones (((1 : UInt) <<< pos.toNat - 1) &&& bits) 32
      = ones (((1 : UInt) <<< pos.toNat - 1) &&& bits) (pos.toNat + n) :=
    congrArg (ones _) hn
  rw [hsplit]
  unfold ones
  rw [Nat.count_add, habove, Nat.add_zero]
  refine count_congr fun i hi => ?_
  rw [BitVec.getLsbD_and, below_bits hpos]
  simp [hi]

/-- The bit at a position, alone. -/
theorem one_bits {pos : Nat} (i : Nat) (hi : i < 32) :
    ((1 : UInt) <<< pos).getLsbD i = decide (i = pos) := by
  rw [BitVec.getLsbD_shiftLeft, show (1 : UInt) = 1#32 from rfl,
    BitVec.getLsbD_one]
  by_cases heq : i = pos
  · subst heq
    simp [hi]
  · by_cases hlt : i < pos
    · simp [hlt, heq]
    · simp [heq, show i - pos ≠ 0 by omega]

/-- A bit that is set adds one to the counts past it. Induction on the
range. -/
theorem ones_set {bits : UInt} {pos : Nat}
    (hclear : bits.getLsbD pos = false) : ∀ {n : Nat}, n ≤ 32 →
    ones (bits ||| (1 : UInt) <<< pos) n
      = ones bits n + if pos < n then 1 else 0 := by
  intro n
  unfold ones
  induction n with
  | zero => exact fun _ => rfl
  | succ n ih =>
      intro hn
      rw [Nat.count_succ, Nat.count_succ, ih (by omega), BitVec.getLsbD_or,
        one_bits n (by omega)]
      by_cases heq : n = pos
      · subst heq
        simp [hclear]
      · simp only [heq, decide_false, Bool.or_false]
        by_cases hlt : pos < n
        · rw [if_pos hlt, if_pos (show pos < n + 1 by omega)]
          omega
        · rw [if_neg hlt, if_neg (show ¬ pos < n + 1 by omega)]
          omega

-- ================================================================ two words

/-- The halves of a word of 64 bits. -/
theorem low_bits (v : BitVec 64) {i : Nat} (hi : i < 32) :
    ((v &&& 0xffffffff).setWidth 32).getLsbD i = v.getLsbD i := by
  have hmask : (0xffffffff : BitVec 64).getLsbD i = true := by
    revert i
    decide
  rw [BitVec.getLsbD_setWidth, BitVec.getLsbD_and, hmask]
  simp [hi]

theorem high_bits (v : BitVec 64) {i : Nat} (hi : i < 32) :
    ((v >>> 32).setWidth 32).getLsbD i = v.getLsbD (32 + i) := by
  rw [BitVec.getLsbD_setWidth, BitVec.getLsbD_ushiftRight]
  simp [hi]

/-- The count of a word of 64 bits. -/
theorem toNat_popcnt64 (v : BitVec 64) : (popcnt64 v).toNat = ones v 64 := by
  have hlow : ones ((v &&& 0xffffffff).setWidth 32) 32 = ones v 32 :=
    count_congr fun i hi => by rw [low_bits v hi]
  have hhigh : ones ((v >>> 32).setWidth 32) 32
      = Nat.count (fun i => v.getLsbD (32 + i) = true) 32 :=
    count_congr fun i hi => by rw [high_bits v hi]
  have hsum : ones v 64 = ones v 32
      + Nat.count (fun i => v.getLsbD (32 + i) = true) 32 := by
    show Nat.count _ (32 + 32) = _
    rw [Nat.count_add]
    rfl
  have hle : ones v 32 ≤ 32 := Nat.count_le _
  have hle' : Nat.count (fun i => v.getLsbD (32 + i) = true) 32 ≤ 32 :=
    Nat.count_le _
  unfold popcnt64
  rw [BitVec.toNat_add, toNat_popcnt32, toNat_popcnt32, hlow, hhigh, hsum]
  omega

/-- The word 0 has no ones. -/
theorem zero_bits {w : Nat} (i : Nat) : (0 : BitVec w).getLsbD i = false :=
  BitVec.getLsbD_zero

/-- The lowest one of a word. -/
theorem bsf32_lowest {v : UInt} (hv : v ≠ 0) :
    FirstFit.bsf32 v < 32 ∧ v.getLsbD (FirstFit.bsf32 v) = true
      ∧ ∀ i < FirstFit.bsf32 v, v.getLsbD i = false := by
  unfold FirstFit.bsf32
  cases hfind : (List.range 32).find? v.getLsbD with
  | none =>
      have hall := List.find?_eq_none.mp hfind
      refine absurd (BitVec.eq_of_getLsbD_eq fun i hi => ?_) hv
      rw [zero_bits]
      exact Bool.eq_false_iff.mpr (hall i (List.mem_range.mpr hi))
  | some n =>
      obtain ⟨hn, hlt, hlower⟩ := List.find?_range_eq_some.mp hfind
      refine ⟨List.mem_range.mp hlt, hn, fun i hi => ?_⟩
      have hnot := hlower i hi
      simpa using hnot

/-- The lowest one of a word of 64 bits. -/
theorem bsf64_lowest {v : BitVec 64} (hv : v ≠ 0) :
    bsf64 v < 64 ∧ v.getLsbD (bsf64 v) = true
      ∧ ∀ i < bsf64 v, v.getLsbD i = false := by
  unfold bsf64
  by_cases hlow : v &&& 0xffffffff = 0
  · have hhalf : (v &&& 0xffffffff).setWidth 32 = (0 : UInt) := by
      rw [hlow]
      rfl
    have hbelow : ∀ i < 32, v.getLsbD i = false := by
      intro i hi
      rw [← low_bits v hi]
      rw [hhalf, zero_bits]
    have hhigh : (v >>> 32).setWidth 32 ≠ (0 : UInt) := by
      intro hhigh
      refine hv (BitVec.eq_of_getLsbD_eq fun i hi => ?_)
      rw [zero_bits]
      by_cases hi' : i < 32
      · exact hbelow i hi'
      · rw [show i = 32 + (i - 32) by omega, ← high_bits v (by omega),
          hhigh, zero_bits]
    obtain ⟨hlt, hset, hlower⟩ := bsf32_lowest hhigh
    rw [if_neg (not_not_intro hlow)]
    rw [high_bits v hlt] at hset
    rw [Nat.add_comm]
    refine ⟨by omega, hset, fun i hi => ?_⟩
    by_cases hi' : i < 32
    · exact hbelow i hi'
    · rw [show i = 32 + (i - 32) by omega, ← high_bits v (by omega)]
      exact hlower _ (by omega)
  · have hhalf : (v &&& 0xffffffff).setWidth 32 ≠ (0 : UInt) := by
      intro hhalf
      refine hlow (BitVec.eq_of_toNat_eq ?_)
      have hlt : (v &&& 0xffffffff).toNat < 2 ^ 32 := by
        rw [BitVec.toNat_and]
        exact Nat.lt_of_le_of_lt Nat.and_le_right (by decide)
      have hnat := congrArg BitVec.toNat hhalf
      rw [BitVec.toNat_setWidth, Nat.mod_eq_of_lt hlt] at hnat
      exact hnat
    obtain ⟨hlt, hset, hlower⟩ := bsf32_lowest hhalf
    rw [if_pos hlow]
    rw [low_bits v hlt] at hset
    refine ⟨by omega, hset, fun i hi => ?_⟩
    rw [← low_bits v (by omega)]
    exact hlower i hi

-- ============================================================ powers of two

/-- `npr_is_x2` holds of the powers of two, and of 0. -/
theorem isX2_iff (bits : UInt) :
    isX2 bits = true ↔ bits = 0 ∨ ∃ j, bits.toNat = 2 ^ j := by
  unfold isX2
  rw [decide_eq_true_iff]
  by_cases hzero : bits = 0
  · subst hzero
    exact ⟨fun _ => .inl rfl, fun _ => rfl⟩
  · have hpos : bits.toNat ≠ 0 := fun h => hzero (BitVec.eq_of_toNat_eq h)
    have hsub : (bits - 1).toNat = bits.toNat - 1 := by
      rw [BitVec.toNat_sub_of_le]
      · rfl
      · show 1 ≤ bits.toNat
        omega
    have hnat : (bits - 1) &&& bits = 0
        ↔ bits.toNat &&& (bits.toNat - 1) = 0 := by
      rw [← BitVec.toNat_inj, BitVec.toNat_and, hsub, Nat.and_comm]
      rfl
    rw [hnat, Nat.and_sub_one_eq_zero_iff_isPowerOfTwo hpos]
    exact ⟨.inr, fun h => h.resolve_left hzero⟩

-- ===================================================================== both

/-- `npr_find_bit_idx32` numbers the ones of a word from 0 on, in their
order, and a one that is added moves those above it up by one. -/
theorem bit_index (bits : UInt) :
    (∀ p q : UInt, q.toNat < 32 → bits.getLsbD p.toNat = true →
      p.toNat < q.toNat →
      (findBitIdx32 bits p).toNat < (findBitIdx32 bits q).toNat)
    ∧ (∀ i, i < (popcnt32 bits).toNat ↔ ∃ p : UInt, p.toNat < 32
      ∧ bits.getLsbD p.toNat = true ∧ (findBitIdx32 bits p).toNat = i)
    ∧ ∀ p : UInt, p.toNat < 32 → bits.getLsbD p.toNat = false →
      (popcnt32 (bits ||| (1 : UInt) <<< p.toNat)).toNat
        = (popcnt32 bits).toNat + 1
      ∧ ∀ q : UInt, q.toNat < 32 →
        (findBitIdx32 (bits ||| (1 : UInt) <<< p.toNat) q).toNat
          = (findBitIdx32 bits q).toNat
            + if p.toNat < q.toNat then 1 else 0 := by
  refine ⟨fun p q hq hset hlt => ?_, fun i => ⟨fun hi => ?_, ?_⟩,
    fun p hp hclear => ⟨?_, fun q hq => ?_⟩⟩
  · rw [toNat_findBitIdx32 bits (by omega), toNat_findBitIdx32 bits hq]
    exact Nat.count_strict_mono hset hlt
  · rw [toNat_popcnt32] at hi
    obtain ⟨n, hn, hset, hcount⟩ := exists_count hi
    have hnat : (BitVec.ofNat 32 n).toNat = n := by
      rw [BitVec.toNat_ofNat]
      omega
    refine ⟨BitVec.ofNat 32 n, by omega, by rwa [hnat], ?_⟩
    rw [toNat_findBitIdx32 bits (by omega), hnat]
    exact hcount
  · rintro ⟨p, hp, hset, rfl⟩
    rw [toNat_findBitIdx32 bits hp, toNat_popcnt32]
    exact Nat.count_strict_mono hset hp
  · rw [toNat_popcnt32, toNat_popcnt32, ones_set hclear (Nat.le_refl _),
      if_pos hp]
  · rw [toNat_findBitIdx32 _ hq, toNat_findBitIdx32 _ hq]
    exact ones_set hclear (Nat.le_of_lt hq)

end UdeBench.Npr.BitOps
