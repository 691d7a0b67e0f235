/-
What the pool's three byte counters say of each other.

`entry_byte_pos` and `entry_byte_remain` start as the two parts of the
block's size. A cut moves the padding in front of the object out of
`entry_byte_remain` twice and into `entry_byte_pos` once, so the sum
stays the size exactly as long as nothing is padded (`Exact`). The
check for a new block reads what is left as a signed number, so it is
right about a block only with less than 2^31 bytes left.
-/
import UdeBench.Lib.Calls
import UdeBench.Npr.Proofs.Turns

namespace UdeBench.Npr

open Calls

/-- The counters add up, modulo 2^32. -/
def Accounted (p : Mempool) : Prop :=
  p.entryBytePos + p.entryByteRemain = p.entryByteSize

instance (p : Mempool) : Decidable (Accounted p) :=
  inferInstanceAs (Decidable (_ = _))

/-- The current block's address. -/
def Mempool.entry (p : Mempool) : Word :=
  match p.dataEntry.read p.entryIndex with
  | .ok entry => entry
  | .error _ => 0

/-- The padding an object of alignment `2 ^ k` would get. -/
def Mempool.padAt (p : Mempool) (k : Nat) : Word :=
  pad k p.entry p.entryBytePos

/-- An object fits between the aligned current position and the end of
the current block. -/
def Fits (p : Mempool) (k : Nat) (size : Word) : Prop :=
  p.entryBytePos.toNat + (p.padAt k).toNat + size.toNat
    ≤ p.entryByteSize.toNat

instance (p : Mempool) (k : Nat) (size : Word) : Decidable (Fits p k size) :=
  inferInstanceAs (Decidable (_ ≤ _))

/-- A small allocation. -/
def PoolCall.Small : PoolCall → Prop
  | alloc alignShift size => alignShift.toNat ≤ 20 ∧ size.toNat < 1024
  | _ => False

/-- What an allocation should do: leave the counters in balance, and open
a block exactly if the object does not fit the current one. -/
def Balanced (place : Placement) (fuel : Nat) (s : PoolState)
    (c : PoolCall) : Prop :=
  match c with
  | .alloc alignShift size =>
      ∀ s', c.exec place fuel s = .ok s' → Accounted s'.pool
        ∧ s'.pool.entryIndex.toNat = s.pool.entryIndex.toNat
          + if Fits s.pool alignShift.toNat size then 0 else 1
  | _ => True

/-- When it does: nothing is padded, and the block it is cut from has
less than 2^31 bytes left. -/
def Exact (place : Placement) (s : PoolState) (c : PoolCall) : Prop :=
  match c with
  | .alloc alignShift size =>
      if Fits s.pool alignShift.toNat size then
        s.pool.padAt alignShift.toNat = 0
          ∧ s.pool.entryByteSize.toNat < s.pool.entryBytePos.toNat + 2 ^ 31
      else
        2 ^ alignShift.toNat
            ∣ (place (s.mem.calls + s.pool.entryGrowth)).toNat
          ∧ (nextSize s.pool.entryByteSize (1#32 <<< alignShift.toNat)
            size).toNat < 2 ^ 31
  | _ => True

instance (place : Placement) (s : PoolState) (c : PoolCall) :
    Decidable (Exact place s c) :=
  match c with
  | .alloc alignShift size =>
      inferInstanceAs (Decidable (if Fits s.pool alignShift.toNat size then
        _ ∧ _ else _ ∧ _))
  | .strdup _ => inferInstanceAs (Decidable True)
  | .strndup _ => inferInstanceAs (Decidable True)
  | .copy _ => inferInstanceAs (Decidable True)
  | .clear => inferInstanceAs (Decidable True)

-- ========================================================== one turn

section
variable {place : Placement} {rest : List Block} {m m' : Mem}
  {pool pool' : Mempool} {k : Nat} {size : Word}

/-- No padding is an aligned address. -/
theorem pad_eq_zero_iff (hk : k < 32) (entry pos : Word) :
    pad k entry pos = 0 ↔ 2 ^ k ∣ (entry + pos).toNat := by
  have hround := Bits.and_alignMask (entry + pos + ((1#32 <<< k) - 1)) hk
  have hlt := ptrDiff_lt (entry + pos) hk
  have hsum : (entry + pos + ((1#32 <<< k) - 1)) &&& ~~~((1#32 <<< k) - 1)
      = pad k entry pos + (entry + pos) := (BitVec.sub_add_cancel _ _).symm
  constructor
  · intro hzero
    rw [hzero] at hsum
    rw [hsum] at hround
    have h0 : (0 : Word) + (entry + pos) = entry + pos := BitVec.zero_add _
    rw [h0] at hround
    rw [hround]
    exact Nat.dvd_mul_left _ _
  · intro hdvd
    apply BitVec.eq_of_toNat_eq
    show (pad k entry pos).toNat = 0
    have hdvd' : 2 ^ k ∣ (pad k entry pos + (entry + pos)).toNat := by
      rw [← hsum, hround]
      exact Nat.dvd_mul_left _ _
    rw [BitVec.toNat_add] at hdvd'
    have hspace : 2 ^ k ∣ 2 ^ 32 := Nat.pow_dvd_pow 2 (by omega)
    have hboth := (Nat.dvd_mod_iff hspace).mp hdvd'
    have hpad := (Nat.dvd_add_left hdvd).mp hboth
    exact Nat.eq_zero_of_dvd_of_lt hpad hlt

/-- What the check says of a block whose counters are in balance. -/
theorem full_iff (entry : Word) (hacc : Accounted pool)
    (hroom : Room pool.entryByteRemain pool.entryBytePos pool.entryByteSize)
    (hk : k ≤ 20) (hsize : size.toNat < 1024) :
    full k size entry pool = true ↔
      ¬ pool.entryBytePos.toNat + (pad k entry pool.entryBytePos).toNat
          + size.toNat ≤ pool.entryByteSize.toNat
        ∨ pool.entryBytePos.toNat + (pad k entry pool.entryBytePos).toNat
          + 2 ^ 31 ≤ pool.entryByteSize.toNat := by
  have hpow : 2 ^ k ≤ 2 ^ 20 := Nat.pow_le_pow_right (by decide) hk
  have hd : (pad k entry pool.entryBytePos).toNat < 2 ^ k :=
    ptrDiff_lt _ (by omega)
  have hsum := congrArg BitVec.toNat hacc
  rw [BitVec.toNat_add] at hsum
  have hr := pool.entryByteRemain.isLt
  have hp := pool.entryBytePos.isLt
  have hs := pool.entryByteSize.isLt
  have hsigned := signed pool.entryByteRemain
  have hsigned₁ := signed (pool.entryByteRemain
    - pad k entry pool.entryBytePos)
  have hsigned₂ := signed size
  have hsub : (pool.entryByteRemain - pad k entry pool.entryBytePos).toNat
      = (2 ^ 32 - (pad k entry pool.entryBytePos).toNat
        + pool.entryByteRemain.toNat) % 2 ^ 32 := BitVec.toNat_sub _ _
  have hslt : full k size entry pool = true ↔
      (pool.entryByteRemain - pad k entry pool.entryBytePos).toInt
        < size.toInt := by
    unfold full
    rw [BitVec.slt, decide_eq_true_eq]
  rw [hslt]
  rcases hroom with ⟨hpos, hremain⟩ | ⟨hle, hlow, hbig⟩
  · have hpos' := congrArg BitVec.toNat hpos
    have hremain' := congrArg BitVec.toNat hremain
    have h0 : (0#32).toNat = 0 := rfl
    omega
  · omega

/-- A cut keeps the balance exactly if it pads nothing. -/
theorem cut_accounted_iff {entry : Word} (hacc : Accounted pool) :
    Accounted (cut k size entry pool) ↔ pad k entry pool.entryBytePos = 0 := by
  unfold Accounted at hacc ⊢
  have hshift : (cut k size entry pool).entryBytePos
      + (cut k size entry pool).entryByteRemain
      = pool.entryBytePos + pool.entryByteRemain
        - pad k entry pool.entryBytePos := by
    show pool.entryBytePos + (pad k entry pool.entryBytePos + rounded k size)
        + (pool.entryByteRemain - pad k entry pool.entryBytePos
          - (pad k entry pool.entryBytePos + rounded k size)) = _
    generalize pad k entry pool.entryBytePos = d
    generalize rounded k size = a
    generalize pool.entryBytePos = pos
    generalize pool.entryByteRemain = remain
    bv_omega
  rw [hshift, hacc]
  show pool.entryByteSize - _ = pool.entryByteSize ↔ _
  constructor
  · intro h
    generalize pad k entry pool.entryBytePos = d at h ⊢
    generalize pool.entryByteSize = block at h
    bv_omega
  · intro h
    rw [h]
    exact BitVec.sub_zero _

/-- Allocating never goes back to an older block. Induction on the
turns. -/
theorem allocAligned_index_le (hk : k ≤ 20) (hsize : size.toNat < 1024)
    {ret : Word} :
    ∀ (fuel : Nat) {m : Mem} {pool : Mempool} {h : Holdings},
      Owns rest m pool h →
      allocAligned place k size fuel m pool = .ok (m', pool', ret) →
      pool.entryIndex.toNat ≤ pool'.entryIndex.toNat := by
  have hpow : 2 ^ k ≤ 2 ^ 20 := Nat.pow_le_pow_right (by decide) hk
  have hpos := Nat.two_pow_pos k
  have halign : (1#32 <<< k).toNat = 2 ^ k := Bits.toNat_align (by omega)
  intro fuel
  induction fuel with
  | zero =>
      intro m pool h _ hrun
      cases hrun
  | succ fuel ih =>
      intro m pool h ho hrun
      obtain ⟨entry, _, ⟨_, _, hcut, _⟩ | ⟨_, m₁, p₁, hnext, hrun⟩⟩ :=
        allocAligned_ok hrun
      · rw [hcut]
        exact Nat.le_refl _
      · obtain ⟨b, ho₁, _⟩ := (nextEntry_yields place hsize
          (by omega) ho).of_ok hnext
        have hle : p₁.entryIndex.toNat ≤ _ := ih ho₁ hrun
        have hi : p₁.entryIndex.toNat = _ := ho₁.entryIndex
        rw [List.length_append, List.length_singleton] at hi
        have hi' := ho.entryIndex
        omega

/-- The current block's address, where it is known. -/
theorem Mempool.entry_eq {entry : Word}
    (h : pool.dataEntry.read pool.entryIndex = .ok entry) :
    pool.entry = entry := by
  unfold Mempool.entry
  rw [h]

/-- The block opened for an object has room for it. -/
theorem le_nextSize (cur : Word) (hk : k ≤ 20) (hsize : size.toNat < 1024) :
    size.toNat + 2 ^ k ≤ (nextSize cur (1#32 <<< k) size).toNat := by
  have hpow : 2 ^ k ≤ 2 ^ 20 := Nat.pow_le_pow_right (by decide) hk
  have hpos := Nat.two_pow_pos k
  have halign : (1#32 <<< k).toNat = 2 ^ k := Bits.toNat_align (by omega)
  rcases nextSize_cases cur hsize (show 0 < (1#32 <<< k).toNat
    ∧ (1#32 <<< k).toNat ≤ 2 ^ 20 by omega) with ⟨hn, _⟩ | ⟨hn, hle⟩
  · omega
  · rw [hn]
    omega

/-- An allocation from a new block, its counters and its index, where the
old one did not fit: it is cut right away, or the check is wrong about
the new block. -/
theorem opened_iff {fuel : Nat} {h : Holdings} {ret : Word} (hk : k ≤ 20)
    (hsize : size.toNat < 1024) (ho : Owns rest m pool h)
    {m₁ : Mem} {p₁ : Mempool}
    (hnext : nextEntry place m pool (1#32 <<< k) size = .ok (m₁, p₁))
    (hrun : allocAligned place k size fuel m₁ p₁ = .ok (m', pool', ret)) :
    (Accounted pool' ∧ pool'.entryIndex.toNat = pool.entryIndex.toNat + 1)
      ↔ 2 ^ k ∣ (place (m.calls + pool.entryGrowth)).toNat
        ∧ (nextSize pool.entryByteSize (1#32 <<< k) size).toNat < 2 ^ 31 := by
  have hpow : 2 ^ k ≤ 2 ^ 20 := Nat.pow_le_pow_right (by decide) hk
  have hpos := Nat.two_pow_pos k
  have halign : (1#32 <<< k).toNat = 2 ^ k := Bits.toNat_align (by omega)
  obtain ⟨b, ho₁, _⟩ :=
    (nextEntry_yields place hsize (by omega) ho).of_ok hnext
  have hindex : p₁.entryIndex.toNat = pool.entryIndex.toNat + 1 := by
    have hi : p₁.entryIndex.toNat = _ := ho₁.entryIndex
    rw [List.length_append, List.length_singleton] at hi
    have hi' := ho.entryIndex
    omega
  obtain ⟨_, hbytes, hremain, hbytePos, _, _, hread⟩ := nextEntry_ok hnext
  have hacc : Accounted p₁ := by
    unfold Accounted
    rw [hbytePos, hremain, hbytes]
    exact BitVec.zero_add _
  have hroom : Room p₁.entryByteRemain p₁.entryBytePos p₁.entryByteSize :=
    .inl ⟨hbytePos, hremain.trans hbytes.symm⟩
  have hfits := le_nextSize pool.entryByteSize hk hsize
  cases fuel with
  | zero => cases hrun
  | succ fuel =>
      obtain ⟨entry, hentry, hturn⟩ := allocAligned_ok hrun
      have hsame : entry = place (m.calls + pool.entryGrowth) := by
        rw [hread] at hentry
        cases hentry
        rfl
      subst hsame
      have hfull := full_iff (place (m.calls + pool.entryGrowth))
        hacc hroom hk hsize
      have hd : (pad k (place (m.calls + pool.entryGrowth))
          p₁.entryBytePos).toNat < 2 ^ k := ptrDiff_lt _ (by omega)
      have hpad := pad_eq_zero_iff (k := k) (by omega)
        (place (m.calls + pool.entryGrowth)) p₁.entryBytePos
      have h0 : (0 : Word).toNat = 0 := rfl
      rw [hbytePos] at hd hpad hfull
      have hbase : place (m.calls + pool.entryGrowth) + 0
          = place (m.calls + pool.entryGrowth) := BitVec.add_zero _
      rw [hbase] at hpad
      rw [h0, hbytes] at hfull
      rcases hturn with ⟨hnot, _, hcut, _⟩ | ⟨hyes, m₂, p₂, hnext₂, hrun₂⟩
      · rw [hnot] at hfull
        have hsmall : ¬ _ := fun hor => Bool.noConfusion (hfull.mpr hor)
        rw [hcut, cut_accounted_iff hacc, hbytePos, hpad]
        constructor
        · intro hboth
          have hzero := congrArg BitVec.toNat (hpad.mpr hboth.1)
          exact ⟨hboth.1, by omega⟩
        · intro hboth
          exact ⟨hboth.1, hindex⟩
      · have hbig := hfull.mp hyes
        obtain ⟨b₂, ho₂, _⟩ :=
          (nextEntry_yields place hsize (by omega) ho₁).of_ok hnext₂
        have hle : p₂.entryIndex.toNat ≤ _ :=
          allocAligned_index_le hk hsize fuel ho₂ hrun₂
        have hi₂ : p₂.entryIndex.toNat = _ := ho₂.entryIndex
        have hi₁ : p₁.entryIndex.toNat = _ := ho₁.entryIndex
        rw [List.length_append, List.length_singleton] at hi₂
        constructor
        · intro hboth
          have hone := hboth.2
          omega
        · intro hboth
          have hlt := hboth.2
          omega

end

-- ============================================================= one call

/-- One allocation does what it should exactly under the condition. -/
theorem balanced_iff_exact {place : Placement} {fuel : Nat}
    {rest : List Block} {s s' : PoolState} {c : PoolCall}
    (hi : PoolInv rest s) (hacc : Accounted s.pool) (hc : c.Small)
    (hexec : c.exec place fuel s = .ok s') :
    Balanced place fuel s c ↔ Exact place s c := by
  cases c with
  | alloc alignShift size =>
      obtain ⟨hk, hsize⟩ := hc
      have hrun := hexec
      obtain ⟨⟨m', pool', ret⟩, halloc, hret⟩ := bind_eq_ok hrun
      cases hret
      have hsmall : size < 1024#32 := hsize
      rw [mempoolAllocAlignStat_small hsmall] at halloc
      obtain ⟨h, ho, hroom, _⟩ := hi
      rw [← ho.size] at hroom
      have hbalanced : Balanced place fuel s (.alloc alignShift size) ↔
          Accounted pool' ∧ pool'.entryIndex.toNat
            = s.pool.entryIndex.toNat
              + if Fits s.pool alignShift.toNat size then 0 else 1 := by
        constructor
        · intro hb
          exact hb _ hexec
        · intro hb s'' hs''
          rw [hexec] at hs''
          cases hs''
          exact hb
      rw [hbalanced]
      unfold Exact
      simp only
      cases fuel with
      | zero => cases halloc
      | succ fuel =>
          obtain ⟨entry, hread, hturn⟩ := allocAligned_ok halloc
          have hpad : s.pool.padAt alignShift.toNat
              = pad alignShift.toNat entry s.pool.entryBytePos := by
            unfold Mempool.padAt
            rw [Mempool.entry_eq hread]
          have hfull := full_iff entry hacc hroom hk hsize
          rw [← hpad] at hfull
          rcases hturn with ⟨hnot, _, hcut, _⟩ | ⟨hyes, m₁, p₁, hnext, hrest⟩
          · -- cut from the current block
            rw [hnot] at hfull
            have hsmall : ¬ _ := fun hor => Bool.noConfusion (hfull.mpr hor)
            have hfits : Fits s.pool alignShift.toNat size := by
              unfold Fits
              omega
            rw [if_pos hfits, if_pos hfits, hcut, cut_accounted_iff hacc,
              ← hpad]
            constructor
            · intro hboth
              have hzero := congrArg BitVec.toNat hboth.1
              have h0 : (0 : Word).toNat = 0 := rfl
              exact ⟨hboth.1, by omega⟩
            · intro hboth
              exact ⟨hboth.1, rfl⟩
          · have hbig := hfull.mp hyes
            by_cases hfits : Fits s.pool alignShift.toNat size
            · -- it fits, and the check says it does not
              rw [if_pos hfits, if_pos hfits]
              unfold Fits at hfits
              have hpow : 2 ^ alignShift.toNat ≤ 2 ^ 20 :=
                Nat.pow_le_pow_right (by decide) hk
              have hpos := Nat.two_pow_pos alignShift.toNat
              have halign : (1#32 <<< alignShift.toNat).toNat
                  = 2 ^ alignShift.toNat := Bits.toNat_align (by omega)
              obtain ⟨b, ho₁, _⟩ :=
                (nextEntry_yields place hsize (by omega) ho).of_ok hnext
              have hle : p₁.entryIndex.toNat ≤ _ :=
                allocAligned_index_le hk hsize fuel ho₁ hrest
              have hi₁ : p₁.entryIndex.toNat = _ := ho₁.entryIndex
              have hi := ho.entryIndex
              rw [List.length_append, List.length_singleton] at hi₁
              constructor
              · intro hboth
                have hsame := hboth.2
                omega
              · intro hboth
                have hzero := congrArg BitVec.toNat hboth.1
                have h0 : (0 : Word).toNat = 0 := rfl
                have hlt := hboth.2
                omega
            · rw [if_neg hfits, if_neg hfits]
              exact opened_iff hk hsize ho hnext hrest
  | strdup len => exact hc.elim
  | strndup len => exact hc.elim
  | copy len => exact hc.elim
  | clear => exact hc.elim

-- ================================================================= runs

/-- Over a run of small allocations from an initialized pool: the
counters are in balance after every call, and every call opens a block
exactly if the object does not fit, if and only if every call meets
the condition. The pool starts in balance. -/
theorem pool_accounting_iff (place : Placement) {fuel : Nat}
    (hfuel : 34 ≤ fuel) {m m₀ : Mem} {p₀ : Mempool} {sizeHint : Word}
    {cs : List PoolCall} {t : PoolState} (hm : Live m.live)
    (hinit : mempoolInit place m sizeHint = .ok (m₀, p₀))
    (hcs : ∀ c ∈ cs, c.Small)
    (hrun : poolRun place fuel m sizeHint cs = .ok t) :
    Accounted p₀ ∧
      (Along (PoolCall.exec place fuel) (Balanced place fuel) ⟨m₀, p₀, []⟩ cs
        ↔ Along (PoolCall.exec place fuel) (Exact place) ⟨m₀, p₀, []⟩ cs) := by
  have hacc : Accounted p₀ := by
    unfold mempoolInit at hinit
    obtain ⟨⟨m₁, a⟩, _, hinit⟩ := bind_eq_ok hinit
    obtain ⟨⟨m₂, p⟩, _, hinit⟩ := bind_eq_ok hinit
    obtain ⟨a', _, hinit⟩ := bind_eq_ok hinit
    obtain ⟨⟨m₃, a''⟩, _, hinit⟩ := bind_eq_ok hinit
    cases hinit
    exact BitVec.zero_add _
  have hinv : PoolInv m.live ⟨m₀, p₀, []⟩ :=
    (mempoolInit_yields place hm (List.Perm.refl _) sizeHint).of_ok hinit
  have hfold : cs.foldlM (PoolCall.exec place fuel) ⟨m₀, p₀, []⟩ = .ok t := by
    unfold poolRun at hrun
    rw [hinit] at hrun
    exact hrun
  refine ⟨hacc, along_iff (I := fun s => PoolInv m.live s ∧ Accounted s.pool)
    (V := PoolCall.Small) ?_ ?_ cs _ t hcs ⟨hinv, hacc⟩ hfold⟩
  · intro s c s' hs hc hexec
    exact balanced_iff_exact hs.1 hs.2 hc hexec
  · intro s c s' hs hc hexact hexec
    have hvalid : c.Valid := by
      cases c with
      | alloc alignShift size => exact hc.1
      | strdup len => exact hc.elim
      | strndup len => exact hc.elim
      | copy len => exact hc.elim
      | clear => exact trivial
    refine ⟨(PoolCall.exec_yields place hfuel hs.1 hvalid).of_ok hexec, ?_⟩
    have hb := (balanced_iff_exact hs.1 hs.2 hc hexec).mpr hexact
    cases c with
    | alloc alignShift size => exact (hb s' hexec).1
    | strdup len => exact hc.elim
    | strndup len => exact hc.elim
    | copy len => exact hc.elim
    | clear => exact hc.elim

theorem pool_accounting_words : ∃ m p t,
    mempoolInit everyMegabyte ⟨[], 0, []⟩ 64 = .ok (m, p)
      ∧ poolRun everyMegabyte 34 ⟨[], 0, []⟩ 64 [.alloc 3 10, .alloc 3 24]
        = .ok t
      ∧ Accounted p
      ∧ (Along (PoolCall.exec everyMegabyte 34) (Balanced everyMegabyte 34)
          ⟨m, p, []⟩ [.alloc 3 10, .alloc 3 24]
        ↔ Along (PoolCall.exec everyMegabyte 34) (Exact everyMegabyte)
          ⟨m, p, []⟩ [.alloc 3 10, .alloc 3 24]) := by
  obtain ⟨⟨m, p⟩, hinit⟩ := exists_ok (show (mempoolInit everyMegabyte
    ⟨[], 0, []⟩ 64).isOk = true by rfl)
  obtain ⟨t, hrun⟩ := exists_ok (show (poolRun everyMegabyte 34 ⟨[], 0, []⟩ 64
    [.alloc 3 10, .alloc 3 24]).isOk = true by rfl)
  refine ⟨m, p, t, hinit, hrun, pool_accounting_iff everyMegabyte
    (Nat.le_refl 34) ⟨List.Pairwise.nil, fun _ hb => absurd hb
      List.not_mem_nil⟩ hinit ?_ hrun⟩
  intro c hc
  rcases List.mem_cons.mp hc with rfl | hc
  · exact ⟨by decide, by decide⟩
  · rw [List.mem_singleton.mp hc]
    exact ⟨by decide, by decide⟩

/-- A byte and an aligned byte: seven bytes are counted twice, and an
object that fits the block gets a new one. -/
theorem not_accounted_bytes : ∃ s s',
    poolRun everyMegabyte 34 ⟨[], 0, []⟩ 64 [.alloc 0 1, .alloc 3 1] = .ok s
      ∧ ¬ Accounted s.pool ∧ Fits s.pool 0 48
      ∧ PoolCall.exec everyMegabyte 34 s (.alloc 0 48) = .ok s'
      ∧ s'.pool.entryIndex ≠ s.pool.entryIndex :=
  ⟨_, _, rfl, by decide, by decide, rfl, by decide⟩

end UdeBench.Npr
