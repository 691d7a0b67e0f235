/-
Filling and clearing a pool, round after round.

A workload of small requests at the default alignment takes
`footprint` bytes of the pool, every size rounded up to 8, and needs
`extent` bytes of room: the last object is not rounded. Where the
workload stayed in the first block, clearing the pool sets the position
back but not what is left, so each round takes its footprint off the
block for good. Where it did not, clearing starts over with a block of
the footprint rounded up to a power of two, which takes the signed check
as long as it is at most 2^30.
-/
import UdeBench.Npr.Proofs.Accounting

namespace UdeBench.Npr

open Calls

-- ============================================================= roundup2

/-- Every bit of `z` says whether `y` has one of the `w` bits from there
on. -/
def Covers (y z : Word) (w : Nat) : Prop :=
  ∀ i, z.getLsbD i = true ↔ ∃ j, i ≤ j ∧ j < i + w ∧ y.getLsbD j = true

theorem covers_self (y : Word) : Covers y y 1 := by
  intro i
  constructor
  · intro h
    exact ⟨i, Nat.le_refl _, by omega, h⟩
  · intro h
    obtain ⟨j, hlo, hhi, hj⟩ := h
    have hsame : j = i := by omega
    rw [← hsame]
    exact hj

/-- One line of `roundup2` doubles the window. -/
theorem Covers.double {y z : Word} {w : Nat} (h : Covers y z w) :
    Covers y (z ||| (z >>> w)) (w + w) := by
  intro i
  rw [BitVec.getLsbD_or, BitVec.getLsbD_ushiftRight, Bool.or_eq_true,
    h i, h (w + i)]
  constructor
  · intro hor
    rcases hor with ⟨j, hlo, hhi, hj⟩ | ⟨j, hlo, hhi, hj⟩
    · exact ⟨j, hlo, by omega, hj⟩
    · exact ⟨j, by omega, by omega, hj⟩
  · intro hex
    obtain ⟨j, hlo, hhi, hj⟩ := hex
    by_cases hnear : j < i + w
    · exact .inl ⟨j, hlo, hnear, hj⟩
    · exact .inr ⟨j, by omega, by omega, hj⟩

/-- Over the whole word that fills it up below the highest bit. -/
theorem Covers.toNat {y z : Word} (h : Covers y z 32) (hy : y.toNat ≠ 0) :
    z.toNat = 2 ^ (y.toNat.log2 + 1) - 1 := by
  apply Nat.eq_of_testBit_eq
  intro i
  rw [Nat.testBit_two_pow_sub_one, Bool.eq_iff_iff, decide_eq_true_eq]
  refine (h i).trans ?_
  constructor
  · intro hex
    obtain ⟨j, hlo, _, hj⟩ := hex
    have hge : 2 ^ j ≤ y.toNat := Nat.ge_two_pow_of_testBit hj
    have hlog := (Nat.le_log2 hy).mpr hge
    omega
  · intro hi
    have hbit : y.getLsbD y.toNat.log2 = true := Nat.testBit_log2 hy
    have hlt : y.toNat.log2 < 32 := (Nat.log2_lt hy).mpr y.isLt
    exact ⟨y.toNat.log2, by omega, by omega, hbit⟩

/-- `roundup2` is the next power of two, of a number above 1. -/
theorem toNat_roundup2 {x : Word} (hx : 1 < x.toNat) :
    (roundup2 x).toNat = 2 ^ ((x.toNat - 1).log2 + 1) % 2 ^ 32 := by
  have h1 : (1 : Word).toNat = 1 := rfl
  have hlt := x.isLt
  have hsub : (x - 1).toNat = x.toNat - 1 := by
    rw [BitVec.toNat_sub, h1]
    omega
  have hcovers := ((((covers_self (x - 1)).double.double).double).double).double
  have hz := hcovers.toNat (by omega)
  have hpos := Nat.two_pow_pos ((x - 1).toNat.log2 + 1)
  rw [hsub] at hz hpos
  unfold roundup2
  simp only
  rw [BitVec.toNat_add, h1]
  rw [show (BitVec.toNat _) = _ from hz]
  congr 1
  omega

/-- Up to 2^30 it rounds up, to a power of two that is less than twice
the number; above, what it gives is not positive as an `int`. -/
theorem roundup2_small {x : Word} (h0 : 0 < x.toNat)
    (hx : x.toNat ≤ 2 ^ 30) :
    (roundup2 x).toInt = (roundup2 x).toNat ∧ x.toNat ≤ (roundup2 x).toNat
      ∧ (roundup2 x).toNat < 2 * x.toNat
      ∧ ∃ j, (roundup2 x).toNat = 2 ^ j := by
  have hsigned := signed (roundup2 x)
  rcases Nat.lt_or_ge 1 x.toNat with hlarge | hsmall
  · have hy : x.toNat - 1 ≠ 0 := by omega
    have hlog : (x.toNat - 1).log2 < 30 := (Nat.log2_lt hy).mpr (by omega)
    have hlo := Nat.log2_self_le hy
    have hhi := Nat.lt_log2_self (n := x.toNat - 1)
    have hpow : 2 ^ ((x.toNat - 1).log2 + 1) ≤ 2 ^ 30 :=
      Nat.pow_le_pow_right (by decide) hlog
    have hround := toNat_roundup2 hlarge
    rw [Nat.mod_eq_of_lt (by omega)] at hround
    refine ⟨by omega, ?_, ?_, _, hround⟩
    all_goals
      rw [Nat.pow_succ] at hround hhi
      omega
  · have hone : x = 1#32 := by
      apply BitVec.eq_of_toNat_eq
      show x.toNat = 1
      omega
    subst hone
    exact ⟨by decide, by decide, by decide, 0, by decide⟩

theorem roundup2_large {x : Word} (hx : 2 ^ 30 < x.toNat) :
    (roundup2 x).toInt ≤ 0 := by
  have hsigned := signed (roundup2 x)
  have hlt := x.isLt
  have hy : x.toNat - 1 ≠ 0 := by omega
  have hlog : 30 ≤ (x.toNat - 1).log2 := (Nat.le_log2 hy).mpr (by omega)
  have hlog' : (x.toNat - 1).log2 < 32 := (Nat.log2_lt hy).mpr (by omega)
  have hround := toNat_roundup2 (x := x) (by omega)
  have hcases : (x.toNat - 1).log2 = 30 ∨ (x.toNat - 1).log2 = 31 := by omega
  rcases hcases with h | h
  · rw [h] at hround
    omega
  · rw [h] at hround
    omega

-- ============================================================= one pass

/-- A size rounded up to 8. -/
def round8 (size : Word) : Nat := (size.toNat + 7) / 8 * 8

/-- The bytes a workload takes. -/
def footprint (sizes : List Word) : Nat := (sizes.map round8).sum

/-- The bytes it has to find. -/
def extent : List Word → Nat
  | [] => 0
  | [size] => size.toNat
  | size :: sizes => round8 size + extent sizes

/-- Its calls: `npr_mempool_alloc` of each size. -/
def fill (sizes : List Word) : List PoolCall := sizes.map (PoolCall.alloc 3)

/-- Rounds of filling and clearing. -/
def rounds (sizes : List Word) (n : Nat) : List PoolCall :=
  (List.replicate n (fill sizes ++ [PoolCall.clear])).flatten

/-- A pool with nothing to pad. -/
structure Flush (p : Mempool) : Prop where
  base : ∃ entry, p.dataEntry.read p.entryIndex = .ok entry
    ∧ 2 ^ 3 ∣ entry.toNat
  pos : 2 ^ 3 ∣ p.entryBytePos.toNat

section
variable {place : Placement} {rest : List Block} {m m' : Mem}
  {pool pool' : Mempool} {size ret : Word}

theorem toNat_rounded (hsize : size.toNat < 1024) :
    (rounded 3 size).toNat = round8 size :=
  Bits.roundUp_toNat size (by decide) (by omega)

theorem round8_bounds (size : Word) :
    size.toNat ≤ round8 size ∧ round8 size ≤ size.toNat + 7
      ∧ 2 ^ 3 ∣ round8 size := by
  unfold round8
  omega

/-- A cut where nothing is padded. -/
theorem Flush.cut {entry : Word} (hf : Flush pool) (hsize : size.toNat < 1024)
    (hread : pool.dataEntry.read pool.entryIndex = .ok entry) :
    pad 3 entry pool.entryBytePos = 0 ∧ Flush (cut 3 size entry pool)
      ∧ (Npr.cut 3 size entry pool).entryByteRemain
        = pool.entryByteRemain - rounded 3 size
      ∧ (Npr.cut 3 size entry pool).allocSmall
        = pool.allocSmall + rounded 3 size := by
  obtain ⟨⟨entry', hread', hbase⟩, hpos⟩ := hf
  have hsame : entry = entry' := by
    rw [hread] at hread'
    cases hread'
    rfl
  subst hsame
  have hround := toNat_rounded hsize
  have hdvd := (round8_bounds size).2.2
  have hpad : pad 3 entry pool.entryBytePos = 0 := by
    rw [pad_eq_zero_iff (by decide), BitVec.toNat_add]
    omega
  have halloc : pad 3 entry pool.entryBytePos + rounded 3 size
      = rounded 3 size := by
    rw [hpad]
    exact BitVec.zero_add _
  refine ⟨hpad, ⟨⟨entry, hread, hbase⟩, ?_⟩, ?_, ?_⟩
  · show 2 ^ 3 ∣ (pool.entryBytePos + (pad 3 entry pool.entryBytePos
      + rounded 3 size)).toNat
    rw [halloc, BitVec.toNat_add]
    omega
  · show pool.entryByteRemain - pad 3 entry pool.entryBytePos
      - (pad 3 entry pool.entryBytePos + rounded 3 size) = _
    rw [halloc, hpad]
    exact congrArg (· - rounded 3 size) (BitVec.sub_zero _)
  · show pool.allocSmall + (pad 3 entry pool.entryBytePos + rounded 3 size)
      = _
    rw [halloc]

/-- However many blocks an allocation opens, nothing is padded.
Induction on the turns. -/
theorem Flush.alloc (hplace : ∀ n, 2 ^ 3 ∣ (place n).toNat)
    (hsize : size.toNat < 1024) :
    ∀ (fuel : Nat) {m : Mem} {pool : Mempool}, Flush pool →
      allocAligned place 3 size fuel m pool = .ok (m', pool', ret) →
      Flush pool' ∧ pool'.largeIndex = pool.largeIndex
        ∧ pool'.allocSmall = pool.allocSmall + rounded 3 size := by
  intro fuel
  induction fuel with
  | zero =>
      intro m pool _ hrun
      cases hrun
  | succ fuel ih =>
      intro m pool hf hrun
      obtain ⟨entry, hread, ⟨_, _, hcut, _⟩ | ⟨_, m₁, p₁, hnext, hrest⟩⟩ :=
        allocAligned_ok hrun
      · obtain ⟨_, hflush, _, hsmall⟩ := hf.cut hsize hread
        rw [hcut]
        exact ⟨hflush, rfl, hsmall⟩
      · obtain ⟨_, _, _, hpos, hsmall, hlarge, hread₁⟩ := nextEntry_ok hnext
        have hf₁ : Flush p₁ := by
          refine ⟨⟨_, hread₁, hplace _⟩, ?_⟩
          rw [hpos]
          exact Nat.dvd_zero _
        obtain ⟨hflush, hlarge', hsmall'⟩ := ih hf₁ hrest
        rw [hlarge', hsmall', hlarge, hsmall]
        exact ⟨hflush, rfl, rfl⟩

end

/-- What holds of a pool under such a workload. -/
structure Worked (rest : List Block) (s : PoolState) : Prop where
  inv : PoolInv rest s
  flush : Flush s.pool
  noLarge : s.pool.largeIndex = 0

section
variable {place : Placement} {rest : List Block} {fuel : Nat}
  {s s' : PoolState} {size : Word}

/-- One allocation: it is cut from the current block if what is left, as
an `int`, is enough, and goes to a later block if not. -/
theorem Worked.step (hplace : ∀ n, 2 ^ 3 ∣ (place n).toNat)
    (hfuel : 34 ≤ fuel) (hw : Worked rest s) (hsize : size.toNat < 1024)
    (hexec : PoolCall.exec place fuel s (.alloc 3 size) = .ok s') :
    Worked rest s' ∧ s'.pool.allocSmall = s.pool.allocSmall + rounded 3 size
      ∧ ((size.toNat : Int) ≤ s.pool.entryByteRemain.toInt →
        s'.pool.entryIndex = s.pool.entryIndex
          ∧ s'.pool.entryByteRemain.toInt
            = s.pool.entryByteRemain.toInt - round8 size)
      ∧ (s.pool.entryByteRemain.toInt < size.toNat →
        s.pool.entryIndex.toNat < s'.pool.entryIndex.toNat) := by
  have hinv : PoolInv rest s' := (PoolCall.exec_yields place hfuel hw.inv
    (c := .alloc 3 size) (show (3 : Word).toNat ≤ 20 by decide)).of_ok hexec
  obtain ⟨⟨m', pool', ret⟩, halloc, hret⟩ := bind_eq_ok hexec
  cases hret
  have hsmall : size < 1024#32 := hsize
  replace halloc : allocAligned place 3 size fuel s.mem s.pool
      = .ok (m', pool', ret) := by
    rw [← halloc, mempoolAllocAlignStat_small hsmall]
    rfl
  obtain ⟨hflush, hlarge, hacc⟩ := hw.flush.alloc hplace hsize fuel halloc
  refine ⟨⟨hinv, hflush, hlarge.trans hw.noLarge⟩, hacc, ?_⟩
  obtain ⟨fuel, rfl⟩ := Nat.exists_eq_succ_of_ne_zero
    (show fuel ≠ 0 by omega)
  obtain ⟨entry, hread, hturn⟩ := allocAligned_ok halloc
  obtain ⟨hpad, _, hremain, _⟩ := hw.flush.cut hsize hread
  have hround := toNat_rounded hsize
  have hbounds := round8_bounds size
  have hsigned := signed size
  have hfull : full 3 size entry s.pool = true ↔
      s.pool.entryByteRemain.toInt < size.toNat := by
    unfold full
    rw [hpad, BitVec.slt, decide_eq_true_eq,
      show s.pool.entryByteRemain - 0 = s.pool.entryByteRemain from
        BitVec.sub_zero _]
    omega
  rcases hturn with ⟨hnot, _, hcut, _⟩ | ⟨hyes, m₁, p₁, hnext, hrest⟩
  · rw [hnot] at hfull
    have hle : ¬ s.pool.entryByteRemain.toInt < size.toNat := fun hlt =>
      Bool.noConfusion (hfull.mpr hlt)
    refine ⟨fun _ => ⟨?_, ?_⟩, fun hlt => absurd hlt hle⟩
    · show pool'.entryIndex = _
      rw [hcut]
      rfl
    · show pool'.entryByteRemain.toInt = _
      rw [hcut, hremain]
      have hsub : (s.pool.entryByteRemain - rounded 3 size).toNat
          = (2 ^ 32 - (rounded 3 size).toNat
            + s.pool.entryByteRemain.toNat) % 2 ^ 32 := BitVec.toNat_sub _ _
      have hsigned₁ := signed s.pool.entryByteRemain
      have hsigned₂ := signed (s.pool.entryByteRemain - rounded 3 size)
      omega
  · have hlt := hfull.mp hyes
    refine ⟨fun hle => absurd hle (by omega), fun _ => ?_⟩
    obtain ⟨h, ho, _, _⟩ := hw.inv
    obtain ⟨b, ho₁, _⟩ := (nextEntry_yields place hsize (by decide) ho).of_ok
      hnext
    have hle : p₁.entryIndex.toNat ≤ pool'.entryIndex.toNat :=
      allocAligned_index_le (by decide) hsize fuel ho₁ hrest
    have hi₁ : p₁.entryIndex.toNat = _ := ho₁.entryIndex
    have hi := ho.entryIndex
    rw [List.length_append, List.length_singleton] at hi₁
    show s.pool.entryIndex.toNat < pool'.entryIndex.toNat
    omega

/-- A pass: the pool stays with its block if the workload's extent is
left there, and ends in a later one if not. Induction on the
workload. -/
theorem Worked.pass (hplace : ∀ n, 2 ^ 3 ∣ (place n).toNat)
    (hfuel : 34 ≤ fuel) :
    ∀ (sizes : List Word) {s t : PoolState}, Worked rest s →
      (∀ size ∈ sizes, size.toNat < 1024) →
      (fill sizes).foldlM (PoolCall.exec place fuel) s = .ok t →
      Worked rest t
        ∧ t.pool.allocSmall
          = s.pool.allocSmall + BitVec.ofNat 32 (footprint sizes)
        ∧ s.pool.entryIndex.toNat ≤ t.pool.entryIndex.toNat
        ∧ (sizes = [] ∨ (extent sizes : Int) ≤ s.pool.entryByteRemain.toInt →
          t.pool.entryByteRemain.toInt
              = s.pool.entryByteRemain.toInt - footprint sizes
            ∧ Along (PoolCall.exec place fuel) (fun u c => ∀ u',
              c.exec place fuel u = .ok u' →
              u'.pool.entryIndex = s.pool.entryIndex) s (fill sizes)
            ∧ t.pool.entryIndex = s.pool.entryIndex)
        ∧ (sizes ≠ [] → s.pool.entryByteRemain.toInt < extent sizes →
          s.pool.entryIndex.toNat < t.pool.entryIndex.toNat) := by
  intro sizes
  induction sizes with
  | nil =>
      intro s t hw _ hrun
      cases hrun
      refine ⟨hw, ?_, Nat.le_refl _, fun _ => ⟨?_, trivial, rfl⟩,
        fun hne => absurd rfl hne⟩
      · exact (BitVec.add_zero _).symm
      · exact (Int.sub_zero _).symm
  | cons size sizes ih =>
      intro s t hw hsizes hrun
      have hsize := hsizes size List.mem_cons_self
      obtain ⟨s', hexec, hrun⟩ := bind_eq_ok hrun
      obtain ⟨hw', hsmall', hstay, hmove⟩ := hw.step hplace hfuel hsize hexec
      obtain ⟨hwt, hsmall, hindex, hfit, hspill⟩ := ih hw'
        (fun x hx => hsizes x (List.mem_cons_of_mem _ hx)) hrun
      have hbounds := round8_bounds size
      have hround := toNat_rounded hsize
      have hfoot : footprint (size :: sizes) = round8 size + footprint sizes :=
        List.sum_cons
      have hfirst : size.toNat ≤ extent (size :: sizes) := by
        cases sizes with
        | nil => exact Nat.le_refl _
        | cons x xs =>
            show _ ≤ round8 size + extent (x :: xs)
            omega
      have hmono : s.pool.entryIndex.toNat ≤ s'.pool.entryIndex.toNat := by
        by_cases hle : (size.toNat : Int) ≤ s.pool.entryByteRemain.toInt
        · rw [(hstay hle).1]
        · exact Nat.le_of_lt (hmove (by omega))
      refine ⟨hwt, ?_, Nat.le_trans hmono hindex, ?_, ?_⟩
      · rw [hsmall, hsmall', hfoot, BitVec.ofNat_add]
        have hword : rounded 3 size = BitVec.ofNat 32 (round8 size) := by
          rw [← hround, BitVec.ofNat_toNat, BitVec.setWidth_eq]
        rw [hword]
        exact BitVec.add_assoc _ _ _
      · intro hor
        have hle : (extent (size :: sizes) : Int)
            ≤ s.pool.entryByteRemain.toInt :=
          hor.resolve_left (List.cons_ne_nil _ _)
        obtain ⟨hsame, hremain⟩ := hstay (by omega)
        have hrest : sizes = [] ∨ (extent sizes : Int)
            ≤ s'.pool.entryByteRemain.toInt := by
          cases sizes with
          | nil => exact .inl rfl
          | cons x xs =>
              right
              have hext : extent (size :: x :: xs)
                  = round8 size + extent (x :: xs) := rfl
              omega
        obtain ⟨hleft, halong, hlast⟩ := hfit hrest
        refine ⟨?_, ⟨?_, ?_⟩, hlast.trans hsame⟩
        · rw [hleft, hremain, hfoot]
          omega
        · intro u' hu'
          rw [hexec] at hu'
          cases hu'
          exact hsame
        · rw [hexec]
          rw [hsame] at halong
          exact halong
      · intro _ hlt
        by_cases hle : (size.toNat : Int) ≤ s.pool.entryByteRemain.toInt
        · obtain ⟨hsame, hremain⟩ := hstay hle
          rw [← hsame]
          cases sizes with
          | nil =>
              have hext : extent [size] = size.toNat := rfl
              omega
          | cons x xs =>
              have hext : extent (size :: x :: xs)
                  = round8 size + extent (x :: xs) := rfl
              exact hspill (List.cons_ne_nil _ _) (by omega)
        · exact Nat.lt_of_lt_of_le (hmove (by omega)) hindex

/-- A new pool. -/
theorem mempoolInit_ok {m m' : Mem} {p : Mempool} {sizeHint : Word}
    (h : mempoolInit place m sizeHint = .ok (m', p)) :
    p.entryIndex = 0 ∧ p.largeIndex = 0 ∧ p.entryByteRemain = sizeHint
      ∧ p.entryByteSize = sizeHint ∧ p.entryBytePos = 0 ∧ p.allocSmall = 0
      ∧ ∃ n, p.dataEntry.read p.entryIndex = .ok (place n) := by
  unfold mempoolInit at h
  obtain ⟨⟨m₁, a⟩, _, h⟩ := bind_eq_ok h
  obtain ⟨⟨m₂, b⟩, hb, h⟩ := bind_eq_ok h
  obtain ⟨a', ha', h⟩ := bind_eq_ok h
  obtain ⟨⟨m₃, a''⟩, _, h⟩ := bind_eq_ok h
  cases h
  refine ⟨rfl, rfl, rfl, rfl, rfl, rfl, m₁.calls, ?_⟩
  rw [← (malloc_ok hb).1]
  exact PtrArray.read_write ha'

theorem Worked.init (hplace : ∀ n, 2 ^ 3 ∣ (place n).toNat) {m m' : Mem}
    {p : Mempool} {sizeHint : Word} (hi : PoolInv rest ⟨m', p, []⟩)
    (h : mempoolInit place m sizeHint = .ok (m', p)) :
    Worked rest ⟨m', p, []⟩ := by
  obtain ⟨_, hlarge, _, _, hpos, _, n, hread⟩ := mempoolInit_ok h
  refine ⟨hi, ⟨⟨_, hread, hplace n⟩, ?_⟩, hlarge⟩
  show 2 ^ 3 ∣ p.entryBytePos.toNat
  rw [hpos]
  exact Nat.dvd_zero _

/-- Clearing: the first block stays as it is, position aside, or a block
of the rounded usage takes the place of several. -/
theorem Worked.clear (hplace : ∀ n, 2 ^ 3 ∣ (place n).toNat)
    (hfuel : 34 ≤ fuel) (hw : Worked rest s)
    (hexec : PoolCall.exec place fuel s .clear = .ok s') :
    Worked rest s' ∧ s'.pool.entryIndex = 0
      ∧ (s.pool.entryIndex = 0 →
        s'.pool.entryByteRemain = s.pool.entryByteRemain)
      ∧ (s.pool.entryIndex ≠ 0 →
        s'.pool.entryByteRemain = roundup2 s.pool.allocSmall) := by
  have hinv : PoolInv rest s' := (PoolCall.exec_yields place hfuel hw.inv
    (c := .clear) trivial).of_ok hexec
  obtain ⟨⟨m', p'⟩, hclear, hret⟩ := bind_eq_ok hexec
  cases hret
  unfold mempoolClear at hclear
  by_cases hfirst : s.pool.entryIndex = 0
  · rw [if_pos ⟨hfirst, hw.noLarge⟩] at hclear
    cases hclear
    refine ⟨⟨hinv, ⟨hw.flush.base, Nat.dvd_zero _⟩, hw.noLarge⟩, hfirst,
      fun _ => rfl, fun hne => absurd hfirst hne⟩
  · rw [if_neg (fun hboth => hfirst hboth.1)] at hclear
    obtain ⟨m₁, _, hinit⟩ := bind_eq_ok hclear
    obtain ⟨hindex, _, hremain, _⟩ := mempoolInit_ok hinit
    exact ⟨Worked.init hplace hinv hinit, hindex,
      fun h => absurd h hfirst, fun _ => hremain⟩

-- =============================================================== rounds

/-- A call that leaves the pool with its one block. -/
def OneBlock (place : Placement) (fuel : Nat) (s : PoolState)
    (c : PoolCall) : Prop :=
  ∀ s', c.exec place fuel s = .ok s' → s'.pool.entryIndex = 0

theorem rounds_succ (sizes : List Word) (n : Nat) :
    rounds sizes (n + 1)
      = fill sizes ++ (PoolCall.clear :: rounds sizes n) := by
  unfold rounds
  rw [List.replicate_succ, List.flatten_cons, List.append_assoc]
  rfl

/-- Rounds from a pool with one block: each takes the footprint off what
is left. Induction on the rounds. -/
theorem Worked.rounds_iff (hplace : ∀ n, 2 ^ 3 ∣ (place n).toNat)
    (hfuel : 34 ≤ fuel) {sizes : List Word}
    (hsizes : ∀ size ∈ sizes, size.toNat < 1024) :
    ∀ (n : Nat) {s t : PoolState}, Worked rest s → s.pool.entryIndex = 0 →
      (rounds sizes n).foldlM (PoolCall.exec place fuel) s = .ok t →
      (Along (PoolCall.exec place fuel) (OneBlock place fuel) s
          (rounds sizes n)
        ↔ sizes = [] ∨ n = 0 ∨ ((n - 1) * footprint sizes + extent sizes : Int)
            ≤ s.pool.entryByteRemain.toInt) := by
  intro n
  induction n with
  | zero =>
      intro s t _ _ _
      exact ⟨fun _ => .inr (.inl rfl), fun _ => trivial⟩
  | succ n ih =>
      intro s t hw hfirst hrun
      rw [rounds_succ, List.foldlM_append] at hrun
      obtain ⟨u, hfill, hrun⟩ := bind_eq_ok hrun
      obtain ⟨v, hclear, hrun⟩ := bind_eq_ok hrun
      obtain ⟨hwu, _, _, hfit, hspill⟩ := hw.pass hplace hfuel sizes hsizes hfill
      obtain ⟨hwv, hindex, hkeep, _⟩ := hwu.clear hplace hfuel hclear
      have hih := ih hwv hindex hrun
      rw [rounds_succ, along_append _ hfill, Along, hclear]
      have hclearOk : OneBlock place fuel u .clear := by
        intro v' hv'
        rw [hclear] at hv'
        cases hv'
        exact hindex
      by_cases hroom : sizes = []
          ∨ (extent sizes : Int) ≤ s.pool.entryByteRemain.toInt
      · obtain ⟨hleft, halong, hlast⟩ := hfit hroom
        rw [hfirst] at halong hlast
        have hremain := hkeep hlast
        rw [hremain, hleft] at hih
        simp only
        rw [hih]
        rcases hroom with hnil | hle
        · exact ⟨fun _ => .inl hnil, fun _ => ⟨halong, hclearOk, .inl hnil⟩⟩
        · have hcast : ((n + 1 : Nat) : Int) - 1 = n := by omega
          rw [hcast]
          constructor
          · intro hall
            rcases hall.2.2 with hnil | hzero | hmore
            · exact .inl hnil
            · subst hzero
              refine .inr (.inr ?_)
              rw [Int.natCast_zero, Int.zero_mul, Int.zero_add]
              exact hle
            · refine .inr (.inr ?_)
              rw [Int.sub_mul, Int.one_mul] at hmore
              omega
          · intro hor
            refine ⟨halong, hclearOk, ?_⟩
            rcases hor with hnil | hzero | hmore
            · exact .inl hnil
            · cases hzero
            · refine .inr (.inr ?_)
              rw [Int.sub_mul, Int.one_mul]
              omega
      · have hne : sizes ≠ [] := fun h => hroom (.inl h)
        have hlt : s.pool.entryByteRemain.toInt < extent sizes := by
          by_contra hge
          exact hroom (.inr (by omega))
        have hmoved := hspill hne hlt
        constructor
        · intro hall
          have hfillne : fill sizes ≠ [] := by
            intro h
            exact hne (List.map_eq_nil_iff.mp h)
          have hzero : u.pool.entryIndex = 0 := Along.last
            (G := fun w : PoolState => w.pool.entryIndex = 0)
            (fill sizes) hfillne hfill hall.1
          rw [hzero] at hmoved
          exact absurd hmoved (Nat.not_lt_zero _)
        · intro hor
          rcases hor with hnil | hzero | hmore
          · exact absurd hnil hne
          · cases hzero
          · have hcast : ((n + 1 : Nat) : Int) - 1 = n := by omega
            rw [hcast] at hmore
            have hnonneg : (0 : Int) ≤ (n : Int) * footprint sizes :=
              Int.mul_nonneg (by omega) (by omega)
            omega

/-- A workload needs nearly as much as it takes. -/
theorem footprint_le_extent :
    ∀ (sizes : List Word), footprint sizes ≤ extent sizes + 7
      ∧ extent sizes ≤ footprint sizes ∧ footprint sizes % 8 = 0
      ∧ (footprint sizes = 0 → extent sizes = 0) := by
  intro sizes
  induction sizes with
  | nil => exact ⟨Nat.zero_le _, Nat.le_refl _, rfl, fun _ => rfl⟩
  | cons size sizes ih =>
      have hfoot : footprint (size :: sizes) = round8 size + footprint sizes :=
        List.sum_cons
      have hbounds := round8_bounds size
      cases sizes with
      | nil =>
          have hnil : footprint [] = 0 := rfl
          have hext : extent [size] = size.toNat := rfl
          omega
      | cons x xs =>
          have hext : extent (size :: x :: xs)
              = round8 size + extent (x :: xs) := rfl
          omega

-- ======================================================= the first round

/-- What the first round leaves of a new pool: its block less the
footprint, or the block that takes its place. -/
structure FirstRound (sizeHint : Word) (sizes : List Word)
    (s : PoolState) : Prop where
  index : s.pool.entryIndex = 0
  stays : sizes = [] ∨ (extent sizes : Int) ≤ sizeHint.toInt →
    s.pool.entryByteRemain.toInt = sizeHint.toInt - footprint sizes
  moves : sizes ≠ [] → sizeHint.toInt < extent sizes →
    s.pool.entryByteRemain = roundup2 (BitVec.ofNat 32 (footprint sizes))

theorem FirstRound.of_run (hplace : ∀ n, 2 ^ 3 ∣ (place n).toNat)
    (hfuel : 34 ≤ fuel) (hm : Live m.live) {sizeHint : Word}
    {sizes : List Word} (hsizes : ∀ size ∈ sizes, size.toNat < 1024)
    (hrun : poolRun place fuel m sizeHint (rounds sizes 1) = .ok s) :
    Worked m.live s ∧ FirstRound sizeHint sizes s := by
  unfold poolRun at hrun
  obtain ⟨⟨m₀, p₀⟩, hinit, hrun⟩ := bind_eq_ok hrun
  replace hrun : (rounds sizes 1).foldlM (PoolCall.exec place fuel)
      ⟨m₀, p₀, []⟩ = .ok s := hrun
  rw [rounds_succ, List.foldlM_append] at hrun
  obtain ⟨u, hfill, hrun⟩ := bind_eq_ok hrun
  obtain ⟨v, hclear, hrun⟩ := bind_eq_ok hrun
  cases hrun
  have hinv : PoolInv m.live ⟨m₀, p₀, []⟩ :=
    (mempoolInit_yields place hm (List.Perm.refl _) sizeHint).of_ok hinit
  obtain ⟨hindex₀, _, hremain₀, _, _, hsmall₀, _⟩ := mempoolInit_ok hinit
  obtain ⟨hwu, hsmall, _, hfit, hspill⟩ :=
    (Worked.init hplace hinv hinit).pass hplace hfuel sizes hsizes hfill
  obtain ⟨hw, hindex, hkeep, hrestart⟩ := hwu.clear hplace hfuel hclear
  simp only [hremain₀, hsmall₀] at hsmall hfit hspill
  refine ⟨hw, hindex, fun hor => ?_, fun hne hlt => ?_⟩
  · obtain ⟨hleft, _, hlast⟩ := hfit hor
    rw [hkeep (hlast.trans hindex₀), hleft]
  · have hmoved := hspill hne hlt
    have hneu : u.pool.entryIndex ≠ 0 := by
      intro h
      rw [h] at hmoved
      exact absurd hmoved (Nat.not_lt_zero _)
    rw [hrestart hneu, hsmall]
    congr 1
    exact BitVec.zero_add _

/-- The rounds after the first start where it ended. -/
theorem rounds_after {sizeHint : Word} {sizes : List Word} {n : Nat}
    {t : PoolState}
    (hfirst : poolRun place fuel m sizeHint (rounds sizes 1) = .ok s)
    (hrun : poolRun place fuel m sizeHint (rounds sizes (n + 1)) = .ok t) :
    (rounds sizes n).foldlM (PoolCall.exec place fuel) s = .ok t := by
  have happend : rounds sizes (n + 1) = rounds sizes 1 ++ rounds sizes n := by
    unfold rounds
    rw [Nat.add_comm, List.replicate_add, List.flatten_append]
  unfold poolRun at hfirst hrun
  obtain ⟨⟨m₀, p₀⟩, hinit, hrun⟩ := bind_eq_ok hrun
  rw [hinit] at hfirst
  replace hfirst : (rounds sizes 1).foldlM (PoolCall.exec place fuel)
      ⟨m₀, p₀, []⟩ = .ok s := hfirst
  replace hrun : (rounds sizes (n + 1)).foldlM (PoolCall.exec place fuel)
      ⟨m₀, p₀, []⟩ = .ok t := hrun
  rw [happend, List.foldlM_append, hfirst] at hrun
  exact hrun

end

section
variable {sizeHint : Word} {sizes : List Word} {s : PoolState} {n : Nat}

/-- With nothing to fill in there is room for it. -/
theorem FirstRound.room_empty (h : FirstRound sizeHint sizes s)
    (hzero : footprint sizes = 0) :
    sizes = [] ∨ ((n - 1) * footprint sizes + extent sizes : Int)
      ≤ s.pool.entryByteRemain.toInt := by
  by_cases hnil : sizes = []
  · exact .inl hnil
  have hext := (footprint_le_extent sizes).2.2.2 hzero
  obtain ⟨_, hstays, hmoves⟩ := h
  rw [hext, hzero] at hstays
  rw [hext, hzero] at hmoves
  rw [hext, hzero, Int.natCast_zero, Int.mul_zero, Int.zero_add]
  right
  by_cases hroom : (0 : Int) ≤ sizeHint.toInt
  · rw [hstays (.inr hroom)]
    omega
  · rw [hmoves hnil (by omega)]
    decide

/-- Where the first round stays in its block, that block has to hold all
rounds together. -/
theorem FirstRound.room_stays (h : FirstRound sizeHint sizes s)
    (hroom : (extent sizes : Int) ≤ sizeHint.toInt) :
    ((n - 1) * footprint sizes + extent sizes : Int)
        ≤ s.pool.entryByteRemain.toInt
      ↔ n * footprint sizes + extent sizes ≤ sizeHint.toNat := by
  have hsigned := signed sizeHint
  have hcast : ((n * footprint sizes : Nat) : Int)
      = (n : Int) * footprint sizes := Int.natCast_mul _ _
  rw [h.stays (.inr hroom), Int.sub_mul, Int.one_mul]
  omega

/-- Where it leaves its block, and the footprint is too much for the
signed check, there is no room for a second. -/
theorem FirstRound.room_large (h : FirstRound sizeHint sizes s)
    (hlarge : 2 ^ 30 < footprint sizes) (hn : 0 < n)
    (hmoved : sizeHint.toInt < extent sizes) (hne : sizes ≠ []) :
    ¬ ((n - 1) * footprint sizes + extent sizes : Int)
      ≤ s.pool.entryByteRemain.toInt := by
  have hbounds := footprint_le_extent sizes
  have hmod : (BitVec.ofNat 32 (footprint sizes)).toNat
      = footprint sizes % 2 ^ 32 := BitVec.toNat_ofNat _ _
  have hsigned := signed (roundup2 (BitVec.ofNat 32 (footprint sizes)))
  have hnonneg : (0 : Int) ≤ ((n : Int) - 1) * footprint sizes :=
    Int.mul_nonneg (by omega) (by omega)
  rw [h.moves hne hmoved]
  by_cases hwrap : footprint sizes < 2 ^ 32
  · have hblock := roundup2_large (x := BitVec.ofNat 32 (footprint sizes))
      (by omega)
    omega
  · omega

/-- The footprint rounded up has room for one round, not for two. -/
theorem roundup2_footprint (hpos : 0 < footprint sizes)
    (hsmall : footprint sizes ≤ 2 ^ 30) :
    (extent sizes : Int)
        ≤ (roundup2 (BitVec.ofNat 32 (footprint sizes))).toInt
      ∧ (roundup2 (BitVec.ofNat 32 (footprint sizes))).toInt
        < footprint sizes + extent sizes := by
  have hbounds := footprint_le_extent sizes
  have hmod : (BitVec.ofNat 32 (footprint sizes)).toNat
      = footprint sizes := by
    rw [BitVec.toNat_ofNat]
    exact Nat.mod_eq_of_lt (by omega)
  obtain ⟨hint, hge, hlt, j, hj⟩ := roundup2_small
    (x := BitVec.ofNat 32 (footprint sizes)) (by omega) (by omega)
  rw [hmod] at hge hlt
  -- both are multiples of 8, and the extent is less than 8 below
  have height : 8 ∣ (roundup2 (BitVec.ofNat 32 (footprint sizes))).toNat := by
    have hj3 : 3 ≤ j := by
      by_contra hlt3
      have hpow : 2 ^ j ≤ 2 ^ 2 :=
        Nat.pow_le_pow_right (by decide) (by omega)
      omega
    rw [hj]
    exact Nat.pow_dvd_pow 2 hj3
  omega

/-- Otherwise there is room for a second, and for no more. -/
theorem FirstRound.room_small (h : FirstRound sizeHint sizes s)
    (hpos : 0 < footprint sizes) (hsmall : footprint sizes ≤ 2 ^ 30)
    (hn : 0 < n) (hmoved : sizeHint.toInt < extent sizes)
    (hne : sizes ≠ []) :
    ((n - 1) * footprint sizes + extent sizes : Int)
        ≤ s.pool.entryByteRemain.toInt
      ↔ n = 1 := by
  obtain ⟨hge, hlt⟩ := roundup2_footprint hpos hsmall
  rw [h.moves hne hmoved]
  constructor
  · intro hle
    by_contra hmore
    have hmany : (1 : Int) * footprint sizes
        ≤ ((n : Int) - 1) * footprint sizes :=
      Int.mul_le_mul_of_nonneg_right (by omega) (by omega)
    omega
  · intro hone
    rw [hone, show ((1 : Nat) : Int) - 1 = 0 from rfl, Int.zero_mul]
    omega

end

/-- Rounds of filling and clearing a new pool, after the first: none
needs a second block exactly if there is nothing to fill in, the first
block holds all the rounds together, or the first round left it and the
footprint is at most 2^30, and then for one more round only. -/
theorem pool_rounds_iff {place : Placement}
    (hplace : ∀ i, 2 ^ 3 ∣ (place i).toNat) {fuel : Nat} (hfuel : 34 ≤ fuel)
    {m : Mem} (hm : Live m.live) (sizeHint : Word) {sizes : List Word}
    (hsizes : ∀ size ∈ sizes, size.toNat < 1024) (n : Nat)
    {s t : PoolState}
    (hfirst : poolRun place fuel m sizeHint (rounds sizes 1) = .ok s)
    (hrun : poolRun place fuel m sizeHint (rounds sizes (n + 1)) = .ok t) :
    Along (PoolCall.exec place fuel) (OneBlock place fuel) s (rounds sizes n)
      ↔ footprint sizes = 0 ∨ n = 0
        ∨ (sizeHint.toNat < 2 ^ 31
          ∧ n * footprint sizes + extent sizes ≤ sizeHint.toNat)
        ∨ (¬ (sizeHint.toNat < 2 ^ 31 ∧ extent sizes ≤ sizeHint.toNat)
          ∧ footprint sizes ≤ 2 ^ 30 ∧ n = 1) := by
  obtain ⟨hw, hround⟩ := FirstRound.of_run hplace hfuel hm hsizes hfirst
  rw [hw.rounds_iff hplace hfuel hsizes n hround.index
    (rounds_after hfirst hrun)]
  rcases Nat.eq_zero_or_pos n with rfl | hn
  · exact ⟨fun _ => .inr (.inl rfl), fun _ => .inr (.inl rfl)⟩
  rcases Nat.eq_zero_or_pos (footprint sizes) with hzero | hpos
  · exact ⟨fun _ => .inl hzero, fun _ =>
      (hround.room_empty hzero).imp_right .inr⟩
  have hne : sizes ≠ [] := by
    intro h
    rw [h] at hpos
    exact absurd hpos (Nat.not_lt_zero _)
  have hn₀ : n ≠ 0 := Nat.ne_of_gt hn
  have hpos₀ : footprint sizes ≠ 0 := Nat.ne_of_gt hpos
  have hsigned := signed sizeHint
  simp only [hne, hn₀, hpos₀, false_or]
  by_cases hroom : (extent sizes : Int) ≤ sizeHint.toInt
  · -- the first round stays in the first block
    have hhint : sizeHint.toNat < 2 ^ 31 ∧ extent sizes ≤ sizeHint.toNat := by
      omega
    rw [hround.room_stays hroom]
    exact ⟨fun h => .inl ⟨hhint.1, h⟩, fun hor =>
      hor.elim (fun h => h.2) fun h => absurd hhint h.1⟩
  · -- it leaves it, and the second starts with a new block
    have hmoved : sizeHint.toInt < extent sizes := by omega
    have hhint : ¬ (sizeHint.toNat < 2 ^ 31
        ∧ extent sizes ≤ sizeHint.toNat) := by
      omega
    have hall : ¬ (sizeHint.toNat < 2 ^ 31
        ∧ n * footprint sizes + extent sizes ≤ sizeHint.toNat) := fun h =>
      hhint ⟨h.1, Nat.le_trans (Nat.le_add_left _ _) h.2⟩
    simp only [hall, hhint, not_false_eq_true, false_or, true_and]
    rcases Nat.lt_or_ge (2 ^ 30) (footprint sizes) with hlarge | hsmall
    · exact ⟨fun h => absurd h
        (hround.room_large hlarge hn hmoved hne), fun h =>
        absurd h.1 (Nat.not_le_of_lt hlarge)⟩
    · rw [hround.room_small hpos hsmall hn hmoved hne]
      exact ⟨fun h => ⟨hsmall, h⟩, fun h => h.2⟩

theorem pool_rounds_forty : ∃ s t,
    poolRun everyMegabyte 34 ⟨[], 0, []⟩ 128 (rounds [40] 1) = .ok s
      ∧ poolRun everyMegabyte 34 ⟨[], 0, []⟩ 128 (rounds [40] 2) = .ok t
      ∧ (Along (PoolCall.exec everyMegabyte 34) (OneBlock everyMegabyte 34) s
          (rounds [40] 1)
        ↔ footprint [40] = 0 ∨ 1 = 0
          ∨ ((128 : Word).toNat < 2 ^ 31
            ∧ 1 * footprint [40] + extent [40] ≤ (128 : Word).toNat)
          ∨ (¬ ((128 : Word).toNat < 2 ^ 31
              ∧ extent [40] ≤ (128 : Word).toNat)
            ∧ footprint [40] ≤ 2 ^ 30 ∧ 1 = 1)) := by
  obtain ⟨s, hs⟩ := exists_ok (show (poolRun everyMegabyte 34 ⟨[], 0, []⟩ 128
    (rounds [40] 1)).isOk = true by rfl)
  obtain ⟨t, ht⟩ := exists_ok (show (poolRun everyMegabyte 34 ⟨[], 0, []⟩ 128
    (rounds [40] 2)).isOk = true by rfl)
  have hplace : ∀ i, 2 ^ 3 ∣ (everyMegabyte i).toNat := by
    intro i
    unfold everyMegabyte
    rw [BitVec.toNat_ofNat]
    omega
  refine ⟨s, t, hs, ht, pool_rounds_iff hplace (Nat.le_refl 34)
    ⟨List.Pairwise.nil, fun _ hb => absurd hb List.not_mem_nil⟩ 128 ?_ 1
    hs ht⟩
  intro size hsize
  rw [List.mem_singleton.mp hsize]
  decide

/-- One request that fits the block once, and not twice. -/
theorem not_oneBlock_forty : ∃ s,
    poolRun everyMegabyte 34 ⟨[], 0, []⟩ 64 (rounds [40] 1) = .ok s
      ∧ s.pool.entryIndex = 0
      ∧ ¬ Along (PoolCall.exec everyMegabyte 34) (OneBlock everyMegabyte 34) s
        (rounds [40] 1) :=
  ⟨_, rfl, rfl, fun h => absurd (h.1 _ rfl) (by decide)⟩

end UdeBench.Npr
