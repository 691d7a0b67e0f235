/-
What one allocation does to the pool's numbers, read off a call that
succeeded. An allocation takes turns: it opens blocks (`nextEntry_ok`)
until one fits, and then cuts (`cut`). No invariant is needed for that;
the state may be any.

The alignment of what is returned follows at once, and with it where the
documented contract ends: a small object is cut at an aligned address, a
large one is whatever `malloc` gave.
-/
import UdeBench.Npr.Proofs.Pool

namespace UdeBench.Npr

variable {place : Placement} {m m' : Mem} {pool pool' : Mempool}

-- =========================================================== the parts

/-- `malloc` answers with the next place. -/
theorem malloc_ok {size p : Word} (h : malloc place m size = .ok (m', p)) :
    p = place m.calls ∧ m'.calls = m.calls + 1 := by
  unfold malloc at h
  by_cases hf : Fresh m.live ⟨place m.calls, size⟩
  · simp only [if_pos hf] at h
    cases h
    exact ⟨rfl, rfl⟩
  · simp only [if_neg hf] at h
    cases h

theorem release_calls {p : Word} (h : release m p = .ok m') :
    m'.calls = m.calls := by
  unfold release at h
  cases hf : m.live.find? (fun b => b.base = p) with
  | none =>
      rw [hf] at h
      cases h
  | some b =>
      rw [hf] at h
      cases h
      rfl

theorem reallocPtrs_calls {a a' : PtrArray} {num : Word}
    (h : reallocPtrs place m a num = .ok (m', a')) :
    m'.calls = m.calls + 1 := by
  unfold reallocPtrs at h
  obtain ⟨m₁, hm₁, h⟩ := bind_eq_ok h
  obtain ⟨⟨m₂, p⟩, hm₂, h⟩ := bind_eq_ok h
  cases h
  rw [(malloc_ok hm₂).2, release_calls hm₁]

/-- A cell reads as it was written. -/
theorem PtrArray.read_write {a a' : PtrArray} {num i p : Word}
    (h : a.write num i p = .ok a') : a'.read i = .ok p := by
  unfold write at h
  by_cases hi : i.toNat < num.toNat ∧ i.toNat < a.cells.length
  · rw [if_pos hi] at h
    cases h
    apply read_ok
    exact List.getElem?_set_self hi.2
  · rw [if_neg hi] at h
    cases h

/-- The calls of the allocator before the one for a new small block, and
for a large one. -/
def Mempool.entryGrowth (p : Mempool) : Nat :=
  if p.entryNum ≤ p.entryIndex + 1 then 1 else 0

def Mempool.largeGrowth (p : Mempool) : Nat :=
  if p.largeNum ≤ p.largeIndex + 1 then 1 else 0

theorem growEntries_ok
    (h : growEntries place m pool (pool.entryIndex + 1) = .ok (m', pool')) :
    m'.calls = m.calls + pool.entryGrowth
      ∧ pool'.entryIndex = pool.entryIndex
      ∧ pool'.allocSmall = pool.allocSmall
      ∧ pool'.largeIndex = pool.largeIndex := by
  unfold growEntries at h
  unfold Mempool.entryGrowth
  by_cases hgrow : pool.entryNum ≤ pool.entryIndex + 1
  · rw [if_pos hgrow] at h ⊢
    obtain ⟨⟨m₁, a⟩, hm₁, h⟩ := bind_eq_ok h
    cases h
    exact ⟨reallocPtrs_calls hm₁, rfl, rfl, rfl⟩
  · rw [if_neg hgrow] at h ⊢
    cases h
    exact ⟨rfl, rfl, rfl, rfl⟩

theorem growLarge_ok (h : growLarge place m pool = .ok (m', pool')) :
    m'.calls = m.calls + pool.largeGrowth := by
  unfold growLarge at h
  unfold Mempool.largeGrowth
  by_cases hgrow : pool.largeNum ≤ pool.largeIndex + 1
  · rw [if_pos hgrow] at h ⊢
    obtain ⟨⟨m₁, a⟩, hm₁, h⟩ := bind_eq_ok h
    cases h
    exact reallocPtrs_calls hm₁
  · rw [if_neg hgrow] at h ⊢
    cases h
    rfl

/-- A new block: empty, of the next size, at the next place. -/
theorem nextEntry_ok {align size : Word}
    (h : nextEntry place m pool align size = .ok (m', pool')) :
    pool'.entryIndex = pool.entryIndex + 1
      ∧ pool'.entryByteSize = nextSize pool.entryByteSize align size
      ∧ pool'.entryByteRemain = nextSize pool.entryByteSize align size
      ∧ pool'.entryBytePos = 0
      ∧ pool'.allocSmall = pool.allocSmall
      ∧ pool'.largeIndex = pool.largeIndex
      ∧ pool'.dataEntry.read pool'.entryIndex
        = .ok (place (m.calls + pool.entryGrowth)) := by
  unfold nextEntry at h
  obtain ⟨⟨m₁, p₁⟩, hm₁, h⟩ := bind_eq_ok h
  obtain ⟨⟨m₂, b⟩, hm₂, h⟩ := bind_eq_ok h
  obtain ⟨a, ha, h⟩ := bind_eq_ok h
  cases h
  obtain ⟨hcalls, _, hsmall, hlarge⟩ := growEntries_ok hm₁
  have hb := (malloc_ok hm₂).1
  rw [hcalls] at hb
  refine ⟨rfl, rfl, rfl, rfl, hsmall, hlarge, ?_⟩
  rw [← hb]
  exact PtrArray.read_write ha

-- =========================================================== the turns

/-- The padding in front of an object of alignment `2 ^ k` at the
position of a block. -/
def pad (k : Nat) (entry pos : Word) : Word :=
  ((entry + pos + ((1#32 <<< k) - 1)) &&& ~~~((1#32 <<< k) - 1))
    - (entry + pos)

/-- A size rounded up to an alignment. -/
def rounded (k : Nat) (size : Word) : Word :=
  (size + ((1#32 <<< k) - 1)) &&& ~~~((1#32 <<< k) - 1)

/-- The pool after an object is cut from its current block. -/
def cut (k : Nat) (size entry : Word) (p : Mempool) : Mempool :=
  let alloc := pad k entry p.entryBytePos + rounded k size
  { p with
    entryByteRemain := p.entryByteRemain - pad k entry p.entryBytePos - alloc
    entryBytePos := p.entryBytePos + alloc
    allocSmall := p.allocSmall + alloc }

/-- The check that sends the code to a new block. -/
def full (k : Nat) (size entry : Word) (p : Mempool) : Bool :=
  (p.entryByteRemain - pad k entry p.entryBytePos).slt size

/-- A turn: a cut from the current block, or a new block and another
turn. -/
theorem allocAligned_ok {k : Nat} {size ret : Word} {fuel : Nat}
    (h : allocAligned place k size (fuel + 1) m pool
      = .ok (m', pool', ret)) :
    ∃ entry, pool.dataEntry.read pool.entryIndex = .ok entry
      ∧ ((full k size entry pool = false ∧ m' = m
          ∧ pool' = cut k size entry pool
          ∧ ret = (entry + pool.entryBytePos + ((1#32 <<< k) - 1))
            &&& ~~~((1#32 <<< k) - 1))
        ∨ (full k size entry pool = true
          ∧ ∃ m₁ p₁, nextEntry place m pool (1#32 <<< k) size = .ok (m₁, p₁)
            ∧ allocAligned place k size fuel m₁ p₁
              = .ok (m', pool', ret))) := by
  unfold allocAligned at h
  rw [allocRetry] at h
  obtain ⟨entry, hread, h⟩ := bind_eq_ok h
  refine ⟨entry, hread, ?_⟩
  have hturn : (if full k size entry pool = true then
      nextEntry place m pool (1#32 <<< k) size >>= fun r =>
        allocAligned place k size fuel r.1 r.2
    else .ok (m, cut k size entry pool, (entry + pool.entryBytePos
      + ((1#32 <<< k) - 1)) &&& ~~~((1#32 <<< k) - 1)))
      = .ok (m', pool', ret) := h
  cases hfull : full k size entry pool with
  | false =>
      rw [hfull, if_neg (by decide)] at hturn
      cases hturn
      exact .inl ⟨rfl, rfl, rfl, rfl⟩
  | true =>
      rw [hfull, if_pos rfl] at hturn
      obtain ⟨⟨m₁, p₁⟩, hnext, hrest⟩ := bind_eq_ok hturn
      exact .inr ⟨rfl, m₁, p₁, hnext, hrest⟩

/-- The small path, in these terms. -/
theorem mempoolAllocAlignStat_small {fuel : Nat} {alignShift size : Word}
    (hsize : size < 1024#32) :
    mempoolAllocAlignStat place fuel m pool alignShift size
      = allocAligned place alignShift.toNat size fuel m pool := by
  unfold mempoolAllocAlignStat
  have hnot : ¬ (1024#32 ≤ size) := fun hle =>
    absurd hsize (by simpa using hle)
  rw [if_neg hnot]
  rfl

-- ============================================================ alignment

/-- What a turn cuts is aligned. Induction on the turns. -/
theorem allocAligned_aligned {k : Nat} (hk : k < 32) {size ret : Word} :
    ∀ (fuel : Nat) {m : Mem} {pool : Mempool},
      allocAligned place k size fuel m pool = .ok (m', pool', ret) →
      2 ^ k ∣ ret.toNat := by
  intro fuel
  induction fuel with
  | zero =>
      intro m pool h
      cases h
  | succ fuel ih =>
      intro m pool h
      obtain ⟨entry, _, ⟨_, _, _, hret⟩ | ⟨_, m₁, p₁, _, h⟩⟩ :=
        allocAligned_ok h
      · rw [hret, Bits.and_alignMask _ hk]
        exact Nat.dvd_mul_left _ _
      · exact ih h

/-- A large object is where `malloc` put it. -/
theorem allocLarge_ret {size ret : Word}
    (h : allocLarge place m pool size = .ok (m', pool', ret)) :
    ret = place (m.calls + pool.largeGrowth) := by
  unfold allocLarge at h
  obtain ⟨⟨m₁, p₁⟩, hm₁, h⟩ := bind_eq_ok h
  obtain ⟨⟨m₂, b⟩, hm₂, h⟩ := bind_eq_ok h
  obtain ⟨a, _, h⟩ := bind_eq_ok h
  cases h
  rw [(malloc_ok hm₂).1, growLarge_ok hm₁]

/-- The address returned is a multiple of `2 ^ align_shift` exactly if
the object is small or `malloc`'s answer happens to be one. -/
theorem alignStat_aligned {fuel : Nat} {alignShift size ret : Word}
    (hshift : alignShift.toNat ≤ 20)
    (h : mempoolAllocAlignStat place fuel m pool alignShift size
      = .ok (m', pool', ret)) :
    2 ^ alignShift.toNat ∣ ret.toNat ↔ size < 1024#32
      ∨ 2 ^ alignShift.toNat
        ∣ (place (m.calls + pool.largeGrowth)).toNat := by
  by_cases hsize : size < 1024#32
  · rw [mempoolAllocAlignStat_small hsize] at h
    have haligned := allocAligned_aligned (by omega) fuel h
    exact ⟨fun _ => .inl hsize, fun _ => haligned⟩
  · have hlarge : 1024#32 ≤ size := by simpa using hsize
    unfold mempoolAllocAlignStat at h
    rw [if_pos hlarge] at h
    rw [allocLarge_ret h]
    exact ⟨.inr, fun hor => hor.resolve_left hsize⟩

/-- The platform guarantee of `malloc`. -/
def Sixteen (place : Placement) : Prop := ∀ n, 2 ^ 4 ∣ (place n).toNat

/-- The 16 bytes are enough for shifts up to 4. -/
theorem alignStat_sixteen {fuel : Nat} {alignShift size ret : Word}
    (hshift : alignShift.toNat ≤ 20)
    (h : mempoolAllocAlignStat place fuel m pool alignShift size
      = .ok (m', pool', ret)) (hplace : Sixteen place)
    (hor : size < 1024#32 ∨ alignShift.toNat ≤ 4) :
    2 ^ alignShift.toNat ∣ ret.toNat :=
  (alignStat_aligned hshift h).mpr <| hor.imp_right fun hle =>
    Nat.dvd_trans (Nat.pow_dvd_pow 2 hle) (hplace _)

/-- Every pool that a run reaches returns an aligned address, if it
returns one, whatever blocks `malloc` gives. -/
def AlwaysAligned (alignShift size : Word) : Prop :=
  ∀ (place : Placement) (fuel : Nat) (sizeHint : Word) (cs : List PoolCall)
    (s : PoolState) (m : Mem) (p : Mempool) (ret : Word), Sixteen place →
    poolRun place fuel ⟨[], 0, []⟩ sizeHint cs = .ok s →
    mempoolAllocAlignStat place fuel s.mem s.pool alignShift size
      = .ok (m, p, ret) →
    2 ^ alignShift.toNat ∣ ret.toNat

/-- An allocator that keeps to the 16 bytes, and not to more. -/
def offSixteen : Placement := fun n =>
  BitVec.ofNat 32 (2 ^ 20 * (n + 1) + 16)

theorem offSixteen_sixteen : Sixteen offSixteen := by
  intro n
  unfold offSixteen
  rw [BitVec.toNat_ofNat]
  omega

/-- The pool it makes. -/
def offPool : PoolState :=
  ⟨⟨[⟨0x300010, 64⟩, ⟨0x200010, 64⟩, ⟨0x100010, 64⟩], 3, []⟩,
    ⟨16, 0, 64, 64, 0, ⟨0x100010, some 0x200010 :: List.replicate 15 none⟩,
      16, 0, ⟨0x300010, List.replicate 16 none⟩, 0⟩, []⟩

/-- A large object of it is at no multiple of 32. -/
theorem offPool_large (alignShift : Word) {size : Word}
    (hlarge : 1024#32 ≤ size) (hsize : size.toNat ≤ 2 ^ 31) :
    ∃ m p, mempoolAllocAlignStat offSixteen 34 offPool.mem offPool.pool
      alignShift size = .ok (m, p, 0x400010) := by
  have hbelow : ∀ c ∈ offPool.mem.live, 0x400010#32 ≠ c.base
      ∧ c.base.toNat + c.size.toNat ≤ 0x400010 := by
    decide
  have hfresh : Fresh offPool.mem.live ⟨0x400010, size⟩ :=
    ⟨show 0x400010 + size.toNat < _ by omega, fun c hc =>
      ⟨(hbelow c hc).1, .inr (hbelow c hc).2⟩⟩
  have hgrow : growLarge offSixteen offPool.mem offPool.pool
      = .ok (offPool.mem, offPool.pool) := rfl
  have hmalloc : malloc offSixteen offPool.mem size
      = .ok (⟨⟨0x400010, size⟩ :: offPool.mem.live, 4, []⟩, 0x400010) :=
    if_pos hfresh
  unfold mempoolAllocAlignStat allocLarge
  rw [if_pos hlarge, hgrow]
  simp only [bind, Except.bind, hmalloc]
  exact ⟨_, _, rfl⟩

/-- A multiple of `2 ^ align_shift` is returned exactly if the object is
small or `malloc`'s answer happens to be one, from any state of the pool.
So what `malloc` guarantees is enough for the sizes and the shifts that
are small, and for no others. -/
theorem pool_alignment_iff {alignShift size : Word}
    (hshift : alignShift.toNat ≤ 20) :
    (∀ {place fuel m pool m' pool' ret},
        mempoolAllocAlignStat place fuel m pool alignShift size
          = .ok (m', pool', ret) →
        (2 ^ alignShift.toNat ∣ ret.toNat ↔ size < 1024#32
          ∨ 2 ^ alignShift.toNat
            ∣ (place (m.calls + pool.largeGrowth)).toNat)
        ∧ (Sixteen place → alignShift.toNat ≤ 4 →
          2 ^ alignShift.toNat ∣ ret.toNat))
      ∧ (size.toNat ≤ 2 ^ 31 →
        (AlwaysAligned alignShift size
          ↔ size < 1024#32 ∨ alignShift.toNat ≤ 4)) := by
  refine ⟨fun h => ⟨alignStat_aligned hshift h, fun hplace hle =>
    alignStat_sixteen hshift h hplace (.inr hle)⟩, fun hsize => ⟨?_, ?_⟩⟩
  · intro halways
    by_contra hno
    obtain ⟨hlarge, hfour⟩ := not_or.mp hno
    obtain ⟨m, p, h⟩ := offPool_large alignShift
      (by simpa using hlarge) hsize
    have hdvd := halways offSixteen 34 64 [] offPool m p _
      offSixteen_sixteen rfl h
    -- 32 divides the power, and not the address
    have hthirty : 2 ^ 5 ∣ (0x400010#32).toNat :=
      Nat.dvd_trans (Nat.pow_dvd_pow 2 (by omega)) hdvd
    exact absurd hthirty (by decide)
  · intro hor place fuel sizeHint cs s m p ret hplace _ h
    exact alignStat_sixteen hshift h hplace hor

theorem pool_alignment_page : ∃ m p ret,
    mempoolAllocAlignStat everyMegabyte 34 ⟨[], 0, []⟩
        ⟨16, 0, 0, 0, 0, ⟨0, []⟩, 16, 0, ⟨0, List.replicate 16 none⟩, 0⟩
        12 4096 = .ok (m, p, ret)
      ∧ (2 ^ 12 ∣ ret.toNat
        ↔ 4096#32 < 1024#32 ∨ 2 ^ 12 ∣ (everyMegabyte 0).toNat) := by
  obtain ⟨⟨m, p, ret⟩, h⟩ := exists_ok (show (mempoolAllocAlignStat
    everyMegabyte 34 ⟨[], 0, []⟩ ⟨16, 0, 0, 0, 0, ⟨0, []⟩, 16, 0,
      ⟨0, List.replicate 16 none⟩, 0⟩ 12 4096).isOk = true by rfl)
  exact ⟨m, p, ret, h, ((pool_alignment_iff (by decide)).1 h).1⟩

/-- A page asked for at the alignment of a page. -/
theorem not_aligned_page : Sixteen offSixteen
    ∧ ∃ s m p ret, poolRun offSixteen 34 ⟨[], 0, []⟩ 64 [] = .ok s
      ∧ mempoolAllocAlignStat offSixteen 34 s.mem s.pool 12 4096
        = .ok (m, p, ret)
      ∧ ¬ 2 ^ 12 ∣ ret.toNat :=
  ⟨offSixteen_sixteen, _, _, _, _, rfl, rfl, by decide⟩

end UdeBench.Npr
