/-
Safety of the memory pool, over every run of calls.

The pool owns its two pointer arrays, the blocks the arrays point to and
nothing else (`Owns`), its numbers never promise more than is left of
the current block (`Room`), and what it has returned lies apart in the
blocks it owns (`Holds`). The three together are `PoolInv`; every call
keeps them, whatever the allocator answers.

# Why nothing wraps

The sizes of the small blocks double modulo 2^32, or start over at what
is asked for. Blocks lie apart in 2^32 bytes, so at most one of them has
2^31 bytes or more, and between starts the sizes double: there are at
most 64 (`length_doubling`). Large blocks have at least 1024 bytes, so
there are at most 2^22. Both array sizes stay far below their wrap.

# Why the retry ends

A block whose size started over holds the object at once. Until then the
size doubles, and 32 doublings modulo 2^32 leave zero.
-/
import Mathlib.Data.List.Chain
import UdeBench.Npr.Proofs.Malloc
import UdeBench.Npr.Proofs.Room

namespace UdeBench.Npr

-- ===================================================== how many blocks

/-- The size of a small block, and that of the next one. -/
def Doubles (a b : Nat) : Prop := 0 < b ∧ (a < 2 ^ 31 → 2 * a ≤ b)

/-- Below 2^31 bytes, together, sizes double at most 31 times. -/
theorem length_doubling_small :
    ∀ (l : List Nat) (a k : Nat), (a :: l).IsChain Doubles → 2 ^ k ≤ a →
      (a :: l).sum < 2 ^ 31 → l.length + 1 + k ≤ 31 := by
  intro l
  induction l with
  | nil =>
      intro a k _ hk hsum
      have hlt : 2 ^ k < 2 ^ 31 := by
        simp only [List.sum_cons, List.sum_nil] at hsum
        omega
      have hk' := (Nat.pow_lt_pow_iff_right (by decide)).mp hlt
      simp only [List.length_nil]
      omega
  | cons b l ih =>
      intro a k hchain hk hsum
      obtain ⟨hab, hchain⟩ := List.isChain_cons_cons.mp hchain
      rw [List.sum_cons] at hsum
      have hb : 2 ^ (k + 1) ≤ b := by
        have hdouble := hab.2 (by omega)
        rw [Nat.pow_succ]
        omega
      have hrest := ih b (k + 1) hchain hb (by omega)
      rw [List.length_cons]
      omega

/-- Within the address space one of them may be larger, and after it
they start over. -/
theorem length_doubling :
    ∀ (l : List Nat) (a k : Nat), (a :: l).IsChain Doubles → 2 ^ k ≤ a →
      (a :: l).sum < 2 ^ 32 → l.length + 1 + k ≤ 63 := by
  intro l
  induction l with
  | nil =>
      intro a k _ hk hsum
      have hlt : 2 ^ k < 2 ^ 32 := by
        simp only [List.sum_cons, List.sum_nil] at hsum
        omega
      have hk' := (Nat.pow_lt_pow_iff_right (by decide)).mp hlt
      simp only [List.length_nil]
      omega
  | cons b l ih =>
      intro a k hchain hk hsum
      obtain ⟨hab, hchain⟩ := List.isChain_cons_cons.mp hchain
      rw [List.sum_cons] at hsum
      rw [List.length_cons]
      by_cases hbig : a < 2 ^ 31
      · have hb : 2 ^ (k + 1) ≤ b := by
          have hdouble := hab.2 hbig
          rw [Nat.pow_succ]
          omega
        have hrest := ih b (k + 1) hchain hb (by omega)
        omega
      · have hlt : 2 ^ k < 2 ^ 32 := by omega
        have hk' := (Nat.pow_lt_pow_iff_right (by decide)).mp hlt
        have hrest := length_doubling_small l b 0 hchain hab.1 (by omega)
        omega

/-- A list of sizes, the first one free. -/
theorem length_sizes {l : List Nat} (hchain : l.IsChain Doubles)
    (hsum : l.sum < 2 ^ 32) : l.length ≤ 64 := by
  cases l with
  | nil => exact Nat.zero_le _
  | cons a l =>
      cases l with
      | nil => exact Nat.succ_le_succ (Nat.zero_le _)
      | cons b l =>
          obtain ⟨hab, hchain⟩ := List.isChain_cons_cons.mp hchain
          rw [List.sum_cons] at hsum
          have hlen := length_doubling l b 0 hchain hab.1 (by omega)
          simp only [List.length_cons]
          omega

-- ========================================================= the invariant

/-- The blocks behind a pool's pointers: the small blocks filled before,
oldest first, the current one, and the large ones. -/
structure Holdings where
  old : List Block
  cur : Block
  large : List Block

/-- The blocks of the pointer arrays. -/
def Mempool.entryArray (p : Mempool) : Block :=
  ⟨p.dataEntry.base, ptrSize * p.entryNum⟩

def Mempool.largeArray (p : Mempool) : Block :=
  ⟨p.large.base, ptrSize * p.largeNum⟩

/-- Everything a pool has to free. -/
def owned (p : Mempool) (h : Holdings) : List Block :=
  p.entryArray :: p.largeArray :: h.cur :: (h.old ++ h.large)

/-- The pool owns its holdings; the other live blocks are `rest`. -/
structure Owns (rest : List Block) (m : Mem) (p : Mempool)
    (h : Holdings) : Prop where
  live : Live m.live
  perm : m.live.Perm (owned p h ++ rest)
  entryIndex : p.entryIndex.toNat = h.old.length
  entryCells : p.dataEntry.cells.take (h.old.length + 1)
    = (h.old ++ [h.cur]).map fun b => some b.base
  entryLength : p.dataEntry.cells.length = p.entryNum.toNat
  entryNum : h.old.length < p.entryNum.toNat ∧ 16 ≤ p.entryNum.toNat
    ∧ p.entryNum.toNat ≤ 128
  largeIndex : p.largeIndex.toNat = h.large.length
  largeCells : p.large.cells.take h.large.length
    = h.large.map fun b => some b.base
  largeLength : p.large.cells.length = p.largeNum.toNat
  largeNum : h.large.length < p.largeNum.toNat ∧ 16 ≤ p.largeNum.toNat
    ∧ p.largeNum.toNat ≤ 2 ^ 23 + 2
  size : p.entryByteSize = h.cur.size
  doubles : ((h.old ++ [h.cur]).map fun b => b.size.toNat).IsChain Doubles
  largeSize : ∀ b ∈ h.large, 1024 ≤ b.size.toNat

/-- A range inside a block. -/
def Block.Within (r b : Block) : Prop :=
  b.base.toNat ≤ r.base.toNat
    ∧ r.base.toNat + r.size.toNat ≤ b.base.toNat + b.size.toNat

/-- What the pool has returned: apart, each in a block, and in the
current one only below the position. -/
structure Holds (p : Mempool) (h : Holdings) (regions : List Block) :
    Prop where
  within : ∀ r ∈ regions, (∃ b ∈ h.old ++ h.large, r.Within b)
    ∨ (r.Within h.cur ∧ r.base.toNat + r.size.toNat
        ≤ h.cur.base.toNat + p.entryBytePos.toNat)
  apart : regions.Pairwise fun a b => Spans.Apart a.span b.span

/-- What every call keeps. -/
def PoolInv (rest : List Block) (s : PoolState) : Prop :=
  ∃ h, Owns rest s.mem s.pool h
    ∧ Room s.pool.entryByteRemain s.pool.entryBytePos h.cur.size
    ∧ Holds s.pool h s.regions

section
variable {rest : List Block} {m : Mem} {p : Mempool} {h : Holdings}

/-- The small blocks and the arrays fit the address space together. -/
theorem Owns.length_old (ho : Owns rest m p h) : h.old.length + 1 ≤ 64 := by
  have hsum := (ho.live.perm ho.perm).sum_le
  have harray : 64 ≤ p.entryArray.size.toNat := by
    have hn := ho.entryNum
    have h4 : ptrSize.toNat = 4 := rfl
    show 64 ≤ (ptrSize * p.entryNum).toNat
    rw [BitVec.toNat_mul, h4]
    omega
  have hlen := length_sizes ho.doubles (by
    simp only [owned, List.map_append, List.map_cons, List.cons_append,
      List.sum_cons, List.sum_append, List.map_nil, List.sum_nil] at hsum ⊢
    omega)
  rw [List.length_map, List.length_append] at hlen
  exact hlen

/-- The large blocks, too. -/
theorem Owns.length_large (ho : Owns rest m p h) :
    h.large.length ≤ 2 ^ 22 := by
  have hsum := (ho.live.perm ho.perm).sum_le
  have hlarge : 1024 * h.large.length
      ≤ (h.large.map fun b => b.size.toNat).sum := by
    have hall := ho.largeSize
    generalize h.large = l at hall
    induction l with
    | nil => exact Nat.zero_le _
    | cons b l ih =>
        have hb := hall b List.mem_cons_self
        have hl := ih fun c hc => hall c (List.mem_cons_of_mem _ hc)
        rw [List.length_cons, List.map_cons, List.sum_cons]
        omega
  simp only [owned, List.map_append, List.map_cons, List.cons_append,
    List.sum_cons, List.sum_append] at hsum
  omega

end

-- ============================================================== destroy

/-- The loops of the destruction: the first pointers of an array are
freed, each once. Induction on the blocks from the last one, the others
standing behind it in the list of live blocks. -/
theorem freePtrs_ok {a : PtrArray} :
    ∀ (bs : List Block) {m : Mem} {l : List Block},
      a.cells.take bs.length = bs.map (fun b => some b.base) →
      bs.length < 2 ^ 32 → Live m.live → m.live.Perm (bs ++ l) →
      ∃ m', freePtrs a m bs.length = .ok m' ∧ m'.live.Perm l
        ∧ m'.freed = m.freed ++ bs.map Block.base ∧ Live m'.live := by
  intro bs
  induction bs using List.reverseRecOn with
  | nil =>
      intro m l _ _ hl hp
      exact ⟨m, rfl, hp, by simp, hl⟩
  | append_singleton bs b ih =>
      intro m l hcells hlt hl hp
      rw [List.length_append, List.length_singleton] at hcells hlt
      have hlen : bs.length < a.cells.length := by
        have hlen := congrArg List.length hcells
        rw [List.length_take, List.length_map, List.length_append,
          List.length_singleton] at hlen
        omega
      rw [← List.take_concat_get' _ _ hlen, List.map_append] at hcells
      obtain ⟨hinit, hlast⟩ := List.append_inj' hcells rfl
      have hcell : a.cells[bs.length]? = some (some b.base) := by
        rw [List.getElem?_eq_getElem hlen]
        exact congrArg some (List.cons.inj hlast).1
      rw [List.append_assoc] at hp
      obtain ⟨m₁, hm₁, hp₁, hfreed₁, hl₁⟩ :=
        ih hinit (by omega) hl hp
      obtain ⟨m₂, hm₂, hp₂, hfreed₂, hl₂⟩ := free_ok hl₁ hp₁
      have hread : a.read (BitVec.ofNat 32 bs.length) = .ok b.base := by
        apply PtrArray.read_ok
        rw [BitVec.toNat_ofNat, Nat.mod_eq_of_lt (by omega)]
        exact hcell
      refine ⟨m₂, ?_, hp₂, ?_, hl₂⟩
      · unfold freePtrs at hm₁ ⊢
        rw [List.length_append, List.length_singleton, List.range_succ,
          List.foldlM_append, hm₁]
        show (do
          let p ← a.read (BitVec.ofNat 32 bs.length)
          free m₁ p) >>= (fun m => Except.ok m) = _
        rw [hread]
        show free m₁ b.base >>= _ = _
        rw [hm₂]
        rfl
      · rw [hfreed₂, hfreed₁, List.map_append, List.append_assoc]
        rfl

/-- `npr_mempool_destroy` frees each owned block once, and nothing
else. -/
theorem mempoolDestroy_ok {rest : List Block} {m : Mem} {p : Mempool}
    {h : Holdings} (ho : Owns rest m p h) :
    ∃ m' ps, mempoolDestroy m p = .ok m' ∧ m'.live.Perm rest
      ∧ m'.freed = m.freed ++ ps ∧ ps.Perm ((owned p h).map Block.base)
      ∧ Live m'.live := by
  have hn := ho.length_old
  have hlarge := ho.length_large
  have hsigned := signed p.entryIndex
  have hsigned' := signed p.largeIndex
  have hi := ho.entryIndex
  have hi' := ho.largeIndex
  have hcount : (p.entryIndex.toInt + 1).toNat
      = (h.old ++ [h.cur]).length := by
    rw [List.length_append, List.length_singleton]
    omega
  have hcount' : p.largeIndex.toInt.toNat = h.large.length := by
    omega
  have hperm : m.live.Perm ((h.old ++ [h.cur])
      ++ (p.entryArray :: (h.large ++ (p.largeArray :: rest)))) := by
    refine ho.perm.trans (List.perm_iff_count.mpr fun b => ?_)
    simp only [owned, List.cons_append, List.append_assoc,
      List.count_cons, List.count_append, List.nil_append]
    omega
  have hcells : p.dataEntry.cells.take (h.old ++ [h.cur]).length
      = (h.old ++ [h.cur]).map fun b => some b.base := by
    rw [List.length_append, List.length_singleton]
    exact ho.entryCells
  obtain ⟨m₁, hm₁, hp₁, hf₁, hl₁⟩ := freePtrs_ok (h.old ++ [h.cur]) hcells
    (by rw [List.length_append, List.length_singleton]; omega) ho.live hperm
  obtain ⟨m₂, hm₂, hp₂, hf₂, hl₂⟩ := free_ok hl₁ hp₁
  obtain ⟨m₃, hm₃, hp₃, hf₃, hl₃⟩ := freePtrs_ok h.large ho.largeCells
    (by omega) hl₂ hp₂
  obtain ⟨m₄, hm₄, hp₄, hf₄, hl₄⟩ := free_ok hl₃ hp₃
  refine ⟨m₄, (h.old ++ [h.cur]).map Block.base ++ ([p.dataEntry.base]
    ++ (h.large.map Block.base ++ [p.large.base])), ?_, hp₄, ?_, ?_, hl₄⟩
  · unfold mempoolDestroy
    rw [hcount, hcount', hm₁]
    show free m₁ p.entryArray.base >>= _ = _
    rw [hm₂]
    show freePtrs p.large m₂ h.large.length >>= _ = _
    rw [hm₃]
    exact hm₄
  · rw [hf₄, hf₃, hf₂, hf₁]
    simp only [List.append_assoc]
    rfl
  · refine List.perm_iff_count.mpr fun b => ?_
    simp only [owned, List.map_cons, List.map_append, List.map_nil,
      Mempool.entryArray, Mempool.largeArray, List.count_cons,
      List.count_append, List.count_nil]
    omega

-- ================================================================= init

/-- `npr_mempool_init` gives an empty pool. -/
theorem mempoolInit_yields (place : Placement) {m : Mem}
    {rest : List Block} (hl : Live m.live) (hp : m.live.Perm rest)
    (sizeHint : Word) :
    Yields OutOfMemory (mempoolInit place m sizeHint) fun r =>
      PoolInv rest ⟨r.1, r.2, []⟩ := by
  unfold mempoolInit
  refine (mallocPtrs_yields place hl (by decide)).bind
    fun ⟨m₁, data⟩ ⟨hlive₁, _, hl₁, hlen₁⟩ => ?_
  refine (malloc_yields place hl₁ sizeHint).bind
    fun ⟨m₂, p⟩ ⟨hlive₂, _, hl₂⟩ => ?_
  have hwrite : data.write 16 0 p
      = .ok ⟨data.base, data.cells.set 0 (some p)⟩ :=
    PtrArray.write_ok (by decide) hlen₁.symm
  show Yields OutOfMemory (data.write 16 0 p >>= _) _
  rw [hwrite]
  refine (mallocPtrs_yields place hl₂ (by decide)).bind
    fun ⟨m₃, large⟩ ⟨hlive₃, _, hl₃, hlen₃⟩ => ?_
  refine ⟨⟨[], ⟨p, sizeHint⟩, []⟩, ?_, .inl ⟨rfl, rfl⟩,
    ⟨fun r hr => absurd hr List.not_mem_nil, List.Pairwise.nil⟩⟩
  simp only at hlive₁ hlive₂ hlive₃
  constructor
  · exact hl₃
  · show m₃.live.Perm _
    rw [hlive₃, hlive₂, hlive₁]
    refine List.perm_iff_count.mpr fun b => ?_
    have hrest := hp.count_eq b
    simp only [owned, Mempool.entryArray, Mempool.largeArray,
      List.append_nil, List.cons_append, List.nil_append, List.count_cons,
      hrest]
    omega
  · rfl
  · show (data.cells.set 0 (some p)).take 1 = [some p]
    cases hc : data.cells with
    | nil =>
        rw [hc] at hlen₁
        cases hlen₁
    | cons c cs => rfl
  · show (data.cells.set 0 (some p)).length = 16
    rw [List.length_set, hlen₁]
    rfl
  · show 0 < (16 : Word).toNat ∧ 16 ≤ (16 : Word).toNat
      ∧ (16 : Word).toNat ≤ 128
    decide
  · rfl
  · rfl
  · exact hlen₃
  · show 0 < (16 : Word).toNat ∧ 16 ≤ (16 : Word).toNat
      ∧ (16 : Word).toNat ≤ 2 ^ 23 + 2
    decide
  · rfl
  · exact List.isChain_singleton _
  · intro b hb
    cases hb

-- ======================================================== large objects

/-- The pointer array of the large blocks has room for one more. -/
theorem growLarge_yields (place : Placement) {rest : List Block} {m : Mem}
    {p : Mempool} {h : Holdings} (ho : Owns rest m p h) :
    Yields OutOfMemory (growLarge place m p) fun r =>
      Owns rest r.1 r.2 h ∧ h.large.length + 1 < r.2.largeNum.toNat
        ∧ r.2.entryByteRemain = p.entryByteRemain
        ∧ r.2.entryBytePos = p.entryBytePos := by
  have hi := ho.largeIndex
  have hn := ho.largeNum
  have hle := ho.length_large
  have hsucc : (p.largeIndex + 1).toNat = h.large.length + 1 := by
    have h1 : (1 : Word).toNat = 1 := rfl
    rw [BitVec.toNat_add, hi, h1]
    omega
  unfold growLarge
  by_cases hgrow : p.largeNum ≤ p.largeIndex + 1
  · rw [if_pos hgrow]
    have hgrow' : p.largeNum.toNat ≤ h.large.length + 1 := by
      rw [← hsucc]
      exact hgrow
    have hdouble : (p.largeNum * 2).toNat = 2 * p.largeNum.toNat := by
      have h2 : (2 : Word).toNat = 2 := rfl
      rw [BitVec.toNat_mul, h2]
      omega
    have hperm : m.live.Perm (p.largeArray
        :: (p.entryArray :: h.cur :: (h.old ++ h.large) ++ rest)) :=
      ho.perm.trans (List.Perm.swap _ _ _)
    refine (reallocPtrs_yields place ho.live hperm rfl (by omega)
      (by rw [ho.largeLength]; omega)).bind
      fun ⟨m', a⟩ ⟨hp', _, hl', hlen', htake'⟩ => ?_
    refine ⟨?_, ?_, rfl, rfl⟩
    · refine { ho with
        live := hl'
        perm := ?_
        largeCells := ?_
        largeLength := hlen'
        largeNum := ?_ }
      · exact hp'.trans (List.Perm.swap _ _ _)
      · have hcells := congrArg (List.take h.large.length) htake'
        rw [List.take_take, ho.largeCells, Nat.min_eq_left (by
          rw [ho.largeLength]; omega)] at hcells
        exact hcells
      · show _ < (p.largeNum * 2).toNat ∧ _ ∧ (p.largeNum * 2).toNat ≤ _
        rw [hdouble]
        omega
    · show _ < (p.largeNum * 2).toNat
      rw [hdouble]
      omega
  · rw [if_neg hgrow]
    refine ⟨ho, ?_, rfl, rfl⟩
    have hlt : ¬ p.largeNum.toNat ≤ (p.largeIndex + 1).toNat := hgrow
    show h.large.length + 1 < p.largeNum.toNat
    omega

/-- A cell written behind the ones in use. -/
theorem take_set_succ {α : Type} {l : List α} {n : Nat} (x : α)
    (h : n < l.length) : (l.set n x).take (n + 1) = l.take n ++ [x] := by
  rw [List.take_add_one, List.take_set_of_le (Nat.le_refl n),
    List.getElem?_set_self h]
  rfl

/-- A range in one of two blocks that lie apart is apart from a range in
the other. -/
theorem Block.Within.apart {r r' b b' : Block} (h : r.Within b)
    (h' : r'.Within b') (hb : Spans.Apart b.span b'.span) :
    Spans.Apart r.span r'.span := by
  unfold Block.Within at h h'
  simp only [Spans.Apart, Block.span] at hb ⊢
  omega

/-- The blocks a pool owns lie apart from one that is fresh beside
them. -/
theorem Owns.apart {rest : List Block} {m : Mem} {p : Mempool}
    {h : Holdings} (ho : Owns rest m p h) {b : Block} {l : List Block}
    (hl : Live (b :: m.live)) (hb : l ⊆ owned p h) :
    ∀ c ∈ l, Spans.Apart b.span c.span := by
  intro c hc
  have hmem : c ∈ m.live :=
    ho.perm.mem_iff.mpr (List.mem_append_left _ (hb hc))
  exact ((List.pairwise_cons.mp hl.beside).1 c hmem).2

/-- What was returned lies apart from a block that is fresh. -/
theorem Holds.apart_fresh {rest : List Block} {m : Mem} {p : Mempool}
    {h : Holdings} {regions : List Block} (hh : Holds p h regions)
    (ho : Owns rest m p h) {b : Block} (hl : Live (b :: m.live)) :
    ∀ r ∈ regions, Spans.Apart b.span r.span := by
  have hself : b.Within b := ⟨Nat.le_refl _, Nat.le_refl _⟩
  intro r hr
  rcases hh.within r hr with ⟨c, hc, hin⟩ | ⟨hin, -⟩
  · refine hself.apart hin (ho.apart (l := h.old ++ h.large) hl ?_ c hc)
    intro x hx
    exact List.mem_cons_of_mem _ (List.mem_cons_of_mem _
      (List.mem_cons_of_mem _ hx))
  · refine hself.apart hin (ho.apart (l := [h.cur]) hl ?_ h.cur
      List.mem_cons_self)
    intro x hx
    rw [List.mem_singleton.mp hx]
    exact List.mem_cons_of_mem _ (List.mem_cons_of_mem _ List.mem_cons_self)

/-- `alloc_large` returns a block of its own. -/
theorem allocLarge_yields (place : Placement) {rest : List Block}
    {s : PoolState} {size : Word} (hsize : 1024 ≤ size.toNat)
    (hi : PoolInv rest s) :
    Yields OutOfMemory (allocLarge place s.mem s.pool size) fun r =>
      PoolInv rest (returned s size r) := by
  obtain ⟨h, ho, hroom, hh⟩ := hi
  unfold allocLarge
  refine (growLarge_yields place ho).bind
    fun ⟨m, p⟩ ⟨ho, hlt, hremain, hpos⟩ => ?_
  refine (malloc_yields place ho.live size).bind
    fun ⟨m', ret⟩ ⟨hlive, _, hl⟩ => ?_
  simp only at ho hlt hremain hpos hlive
  have hh : Holds p h s.regions := by
    refine ⟨?_, hh.apart⟩
    rw [hpos]
    exact hh.within
  have hle := ho.length_large
  have hwrite : p.large.write p.largeNum p.largeIndex ret
      = .ok ⟨p.large.base, p.large.cells.set p.largeIndex.toNat
          (some ret)⟩ :=
    PtrArray.write_ok (by rw [ho.largeIndex]; omega) ho.largeLength.symm
  show Yields OutOfMemory (p.large.write p.largeNum p.largeIndex ret
    >>= _) _
  rw [hwrite]
  have hl' : Live (⟨ret, size⟩ :: m.live) := by
    rw [← hlive]
    exact hl
  refine ⟨{ h with large := h.large ++ [⟨ret, size⟩] }, ?_, ?_, ?_, ?_⟩
  · refine { ho with
      live := hl
      perm := ?_
      largeIndex := ?_
      largeCells := ?_
      largeLength := ?_
      largeNum := ?_
      largeSize := ?_ }
    · show m'.live.Perm _
      rw [hlive]
      refine (ho.perm.cons _).trans (List.perm_iff_count.mpr fun b => ?_)
      simp only [returned, owned, Mempool.entryArray, Mempool.largeArray,
        List.cons_append, List.append_assoc, List.nil_append,
        List.count_cons, List.count_append]
      omega
    · have h1 : (1 : Word).toNat = 1 := rfl
      show (p.largeIndex + 1).toNat = _
      rw [List.length_append, List.length_singleton, BitVec.toNat_add, h1,
        ho.largeIndex]
      omega
    · show (p.large.cells.set p.largeIndex.toNat (some ret)).take _ = _
      rw [List.length_append, List.length_singleton, List.map_append,
        ho.largeIndex, take_set_succ _ (by rw [ho.largeLength]; omega),
        ho.largeCells]
      rfl
    · show (p.large.cells.set _ _).length = _
      rw [List.length_set]
      exact ho.largeLength
    · rw [List.length_append, List.length_singleton]
      exact ⟨hlt, ho.largeNum.2⟩
    · intro b hb
      rcases List.mem_append.mp hb with hb | hb
      · exact ho.largeSize b hb
      · rw [List.mem_singleton.mp hb]
        exact hsize
  · show Room p.entryByteRemain p.entryBytePos h.cur.size
    rw [hremain, hpos]
    exact hroom
  · intro r hr
    rcases List.mem_cons.mp hr with rfl | hr
    · exact .inl ⟨_, List.mem_append_right _ (List.mem_append_right _
        List.mem_cons_self), Nat.le_refl _, Nat.le_refl _⟩
    · rcases hh.within r hr with ⟨b, hb, hin⟩ | hcur
      · refine .inl ⟨b, ?_, hin⟩
        rcases List.mem_append.mp hb with hb | hb
        · exact List.mem_append_left _ hb
        · exact List.mem_append_right _ (List.mem_append_left _ hb)
      · exact .inr hcur
  · exact List.Pairwise.cons (hh.apart_fresh ho hl') hh.apart

-- ======================================================== small objects

/-- The pointer array of the small blocks has room for one more. -/
theorem growEntries_yields (place : Placement) {rest : List Block}
    {m : Mem} {p : Mempool} {h : Holdings} (ho : Owns rest m p h) :
    Yields OutOfMemory (growEntries place m p (p.entryIndex + 1)) fun r =>
      Owns rest r.1 r.2 h ∧ h.old.length + 1 < r.2.entryNum.toNat
        ∧ r.2.allocSmall = p.allocSmall := by
  have hi := ho.entryIndex
  have hn := ho.entryNum
  have hle := ho.length_old
  have hsucc : (p.entryIndex + 1).toNat = h.old.length + 1 := by
    have h1 : (1 : Word).toNat = 1 := rfl
    rw [BitVec.toNat_add, hi, h1]
    omega
  unfold growEntries
  by_cases hgrow : p.entryNum ≤ p.entryIndex + 1
  · rw [if_pos hgrow]
    have hgrow' : p.entryNum.toNat ≤ h.old.length + 1 := by
      rw [← hsucc]
      exact hgrow
    have hdouble : (p.entryNum * 2).toNat = 2 * p.entryNum.toNat := by
      have h2 : (2 : Word).toNat = 2 := rfl
      rw [BitVec.toNat_mul, h2]
      omega
    refine (reallocPtrs_yields place ho.live ho.perm rfl (by omega)
      (by rw [ho.entryLength]; omega)).bind
      fun ⟨m', a⟩ ⟨hp', _, hl', hlen', htake'⟩ => ?_
    refine ⟨?_, ?_, rfl⟩
    · refine { ho with
        live := hl'
        perm := hp'
        entryCells := ?_
        entryLength := hlen'
        entryNum := ?_ }
      · have hcells := congrArg (List.take (h.old.length + 1)) htake'
        rw [List.take_take, ho.entryCells, Nat.min_eq_left (by
          rw [ho.entryLength]; omega)] at hcells
        exact hcells
      · show _ < (p.entryNum * 2).toNat ∧ _ ∧ (p.entryNum * 2).toNat ≤ _
        rw [hdouble]
        omega
    · show _ < (p.entryNum * 2).toNat
      rw [hdouble]
      omega
  · rw [if_neg hgrow]
    refine ⟨ho, ?_, rfl⟩
    have hlt : ¬ p.entryNum.toNat ≤ (p.entryIndex + 1).toNat := hgrow
    show h.old.length + 1 < p.entryNum.toNat
    omega

/-- The next block doubles the current one, or starts over at twice what
is asked for. -/
theorem nextSize_cases (cur : Word) {align size : Word}
    (hsize : size.toNat < 1024)
    (ha : 0 < align.toNat ∧ align.toNat ≤ 2 ^ 20) :
    ((nextSize cur align size).toNat = 2 * (size.toNat + align.toNat)
        ∧ (cur * 2).toNat < size.toNat + align.toNat)
      ∨ (nextSize cur align size = cur * 2
        ∧ size.toNat + align.toNat ≤ (cur * 2).toNat) := by
  have hsum : (size + align).toNat = size.toNat + align.toNat := by
    rw [BitVec.toNat_add]
    omega
  unfold nextSize
  by_cases hlt : cur * 2 < size + align
  · have hlt' : (cur * 2).toNat < (size + align).toNat := hlt
    refine .inl ⟨?_, by omega⟩
    have h2 : (2 : Word).toNat = 2 := rfl
    simp only [if_pos hlt]
    rw [BitVec.toNat_mul, hsum, h2]
    omega
  · have hle : ¬ (cur * 2).toNat < (size + align).toNat := hlt
    refine .inr ⟨?_, by omega⟩
    simp only [if_neg hlt]

/-- Either way sizes double. -/
theorem nextSize_doubles (cur : Word) {align size : Word}
    (hsize : size.toNat < 1024)
    (ha : 0 < align.toNat ∧ align.toNat ≤ 2 ^ 20) :
    Doubles cur.toNat (nextSize cur align size).toNat := by
  have h2 : (2 : Word).toNat = 2 := rfl
  have hcur : (cur * 2).toNat = cur.toNat * 2 % 2 ^ 32 := by
    rw [BitVec.toNat_mul, h2]
  unfold Doubles
  rcases nextSize_cases cur hsize ha with ⟨hn, hlt⟩ | ⟨hn, hle⟩
  · omega
  · rw [hn]
    omega

/-- A new block is opened behind the others. -/
theorem nextEntry_yields (place : Placement) {rest : List Block} {m : Mem}
    {p : Mempool} {h : Holdings} {align size : Word}
    (hsize : size.toNat < 1024)
    (ha : 0 < align.toNat ∧ align.toNat ≤ 2 ^ 20) (ho : Owns rest m p h) :
    Yields OutOfMemory (nextEntry place m p align size) fun r =>
      ∃ b, Owns rest r.1 r.2 ⟨h.old ++ [h.cur], b, h.large⟩
        ∧ b.size = nextSize h.cur.size align size
        ∧ r.2.entryByteRemain = b.size ∧ r.2.entryBytePos = 0#32 := by
  unfold nextEntry
  refine (growEntries_yields place ho).bind
    fun ⟨m₁, q⟩ ⟨ho₁, hlt, _⟩ => ?_
  refine (malloc_yields place ho₁.live _).bind
    fun ⟨m₂, a⟩ ⟨hlive, _, hl⟩ => ?_
  simp only at ho₁ hlt hlive
  have hle := ho₁.length_old
  have h1 : (1 : Word).toNat = 1 := rfl
  have hsucc : (p.entryIndex + 1).toNat = h.old.length + 1 := by
    rw [BitVec.toNat_add, ho.entryIndex, h1]
    omega
  have hwrite : q.dataEntry.write q.entryNum (p.entryIndex + 1) a
      = .ok ⟨q.dataEntry.base, q.dataEntry.cells.set
          (p.entryIndex + 1).toNat (some a)⟩ :=
    PtrArray.write_ok (by omega) ho₁.entryLength.symm
  show Yields OutOfMemory (q.dataEntry.write q.entryNum (p.entryIndex + 1) a
    >>= _) _
  rw [hwrite, ho.size]
  refine ⟨⟨a, nextSize h.cur.size align size⟩, ?_, rfl, rfl, rfl⟩
  refine { ho₁ with
    live := hl
    perm := ?_
    entryIndex := ?_
    entryCells := ?_
    entryLength := ?_
    entryNum := ?_
    size := rfl
    doubles := ?_ }
  · rw [hlive, ho.size]
    refine (ho₁.perm.cons _).trans (List.perm_iff_count.mpr fun b => ?_)
    simp only [owned, Mempool.entryArray, Mempool.largeArray,
      List.cons_append, List.append_assoc, List.nil_append,
      List.count_cons, List.count_append]
    omega
  · rw [List.length_append, List.length_singleton]
    exact hsucc
  · show (q.dataEntry.cells.set (p.entryIndex + 1).toNat (some a)).take _ = _
    rw [List.length_append, List.length_singleton, hsucc,
      take_set_succ _ (by rw [ho₁.entryLength]; exact hlt), ho₁.entryCells]
    simp
  · show (q.dataEntry.cells.set _ _).length = _
    rw [List.length_set]
    exact ho₁.entryLength
  · rw [List.length_append, List.length_singleton]
    exact ⟨hlt, ho₁.entryNum.2⟩
  · have hlist : ((h.old ++ [h.cur]) ++ [(⟨a, nextSize h.cur.size align
          size⟩ : Block)]).map (fun b => b.size.toNat)
        = h.old.map (fun b => b.size.toNat) ++ h.cur.size.toNat
          :: (nextSize h.cur.size align size).toNat :: [] := by
      simp
    have hdoubles := ho₁.doubles
    rw [List.map_append] at hdoubles
    show List.IsChain Doubles (((h.old ++ [h.cur]) ++ [(⟨a, nextSize
      h.cur.size align size⟩ : Block)]).map fun b => b.size.toNat)
    rw [hlist, List.isChain_append_cons_cons]
    exact ⟨hdoubles, nextSize_doubles _ hsize ha, List.isChain_singleton _⟩

/-- Opening a block keeps what was returned. -/
theorem Holds.next {p p' : Mempool} {h : Holdings} {regions : List Block}
    (hh : Holds p h regions) (b : Block) :
    Holds p' ⟨h.old ++ [h.cur], b, h.large⟩ regions := by
  refine ⟨fun r hr => .inl ?_, hh.apart⟩
  rcases hh.within r hr with ⟨c, hc, hin⟩ | ⟨hin, -⟩
  · refine ⟨c, ?_, hin⟩
    rcases List.mem_append.mp hc with hc | hc
    · exact List.mem_append_left _ (List.mem_append_left _ hc)
    · exact List.mem_append_right _ hc
  · exact ⟨h.cur, List.mem_append_left _ (List.mem_append_right _
      List.mem_cons_self), hin⟩

-- ================================================================ retry

section
variable (place : Placement) {rest : List Block} {size : Word} {k : Nat}

/-- The allocation from `retry` on, for an alignment of `2 ^ k`. -/
def allocAligned (k : Nat) (size : Word) :
    Nat → Mem → Mempool → Except MemError (Mem × Mempool × Word) :=
  allocRetry place (1#32 <<< k) (~~~((1#32 <<< k) - 1))
    ((size + ((1#32 <<< k) - 1)) &&& ~~~((1#32 <<< k) - 1)) size

/-- The padding in front of an object at the current position. -/
def padding (k : Nat) (h : Holdings) (p : Mempool) : Word :=
  ((h.cur.base + p.entryBytePos + ((1#32 <<< k) - 1))
    &&& ~~~((1#32 <<< k) - 1)) - (h.cur.base + p.entryBytePos)

/-- The current block lies apart from the others. -/
theorem Owns.cur_apart {m : Mem} {p : Mempool} {h : Holdings}
    (ho : Owns rest m p h) :
    ∀ b ∈ h.old ++ h.large, Spans.Apart h.cur.span b.span := by
  intro b hb
  have hlive := (ho.live.perm ho.perm).tail.tail
  exact ((List.pairwise_cons.mp hlive.beside).1 b
    (List.mem_append_left _ hb)).2

/-- The current block's pointer is the last one in use. -/
theorem Owns.read_cur {m : Mem} {p : Mempool} {h : Holdings}
    (ho : Owns rest m p h) :
    p.dataEntry.read p.entryIndex = .ok h.cur.base := by
  apply PtrArray.read_ok
  have hcell := congrArg (fun l => l[h.old.length]?) ho.entryCells
  simp only [List.getElem?_take_of_lt (Nat.lt_succ_self h.old.length)]
    at hcell
  rw [ho.entryIndex, hcell]
  simp

/-- Where the check fails, a new block is opened and the code tries
again. -/
theorem allocAligned_retry {fuel : Nat} {m : Mem} {p : Mempool}
    {h : Holdings} (ho : Owns rest m p h)
    (hfull : (p.entryByteRemain - padding k h p).slt size = true) :
    allocAligned place k size (fuel + 1) m p
      = nextEntry place m p (1#32 <<< k) size >>= fun r =>
          allocAligned place k size fuel r.1 r.2 := by
  unfold allocAligned
  rw [allocRetry, ho.read_cur]
  unfold padding at hfull
  exact if_pos hfull

/-- Where it succeeds, the object is cut from the current block. -/
theorem allocAligned_fit {fuel : Nat} {s : PoolState} {h : Holdings}
    (hk : k ≤ 20) (hsize : size.toNat < 1024)
    (ho : Owns rest s.mem s.pool h)
    (hroom : Room s.pool.entryByteRemain s.pool.entryBytePos h.cur.size)
    (hh : Holds s.pool h s.regions)
    (hfit : (s.pool.entryByteRemain - padding k h s.pool).slt size = false) :
    Yields OutOfMemory
      (allocAligned place k size (fuel + 1) s.mem s.pool) fun r =>
        PoolInv rest (returned s size r) := by
  have hpow : 2 ^ k ≤ 2 ^ 20 := Nat.pow_le_pow_right (by decide) hk
  have hd : (padding k h s.pool).toNat < 2 ^ k := ptrDiff_lt _ (by omega)
  obtain ⟨hle, hlt⟩ := alignedSize_bounds hk hsize
  obtain ⟨hin, hpos, hroom'⟩ := hroom.fit (by omega) hsize hle (by omega) hfit
  have hbound : h.cur.base.toNat + h.cur.size.toNat < 2 ^ 32 := by
    refine ho.live.bound h.cur (ho.perm.mem_iff.mpr ?_)
    exact List.mem_append_left _ (List.mem_cons_of_mem _
      (List.mem_cons_of_mem _ List.mem_cons_self))
  have haddr : ((h.cur.base + s.pool.entryBytePos + ((1#32 <<< k) - 1))
      &&& ~~~((1#32 <<< k) - 1)).toNat = h.cur.base.toNat
        + s.pool.entryBytePos.toNat + (padding k h s.pool).toNat := by
    have hsum : (h.cur.base + s.pool.entryBytePos + ((1#32 <<< k) - 1))
        &&& ~~~((1#32 <<< k) - 1)
        = padding k h s.pool + (h.cur.base + s.pool.entryBytePos) :=
      (BitVec.sub_add_cancel _ _).symm
    rw [hsum, BitVec.toNat_add, BitVec.toNat_add]
    omega
  unfold allocAligned
  rw [allocRetry, ho.read_cur]
  show Yields OutOfMemory (if (s.pool.entryByteRemain
    - padding k h s.pool).slt size = true then _ else _) _
  rw [if_neg (by rw [hfit]; decide)]
  refine ⟨h, { ho with }, hroom', ?_, ?_⟩
  · intro r hr
    rcases List.mem_cons.mp hr with rfl | hr
    · refine .inr ⟨⟨?_, ?_⟩, ?_⟩
      · show _ ≤ BitVec.toNat _
        rw [haddr]
        omega
      · show BitVec.toNat _ + size.toNat ≤ _
        rw [haddr]
        omega
      · show BitVec.toNat _ + size.toNat
          ≤ _ + (s.pool.entryBytePos + (padding k h s.pool + _)).toNat
        rw [haddr, hpos]
        omega
    · rcases hh.within r hr with hold | ⟨hin', hend⟩
      · exact .inl hold
      · refine .inr ⟨hin', Nat.le_trans hend ?_⟩
        show _ ≤ _ + (s.pool.entryBytePos + (padding k h s.pool + _)).toNat
        rw [hpos]
        omega
  · refine List.Pairwise.cons ?_ hh.apart
    intro r hr
    rcases hh.within r hr with ⟨b, hb, hin'⟩ | ⟨-, hend⟩
    · -- another block
      have hself : Block.Within ⟨(h.cur.base + s.pool.entryBytePos
          + ((1#32 <<< k) - 1)) &&& ~~~((1#32 <<< k) - 1), size⟩ h.cur := by
        unfold Block.Within
        simp only [haddr]
        omega
      exact hself.apart hin' (ho.cur_apart b hb)
    · -- the same block, below the position
      right
      show r.base.toNat + r.size.toNat ≤ BitVec.toNat _
      rw [haddr]
      omega

/-- A block opened for the object holds it. -/
theorem allocAligned_opened {fuel : Nat} {s : PoolState} {h : Holdings}
    (hk : k ≤ 20) (hsize : size.toNat < 1024)
    (ho : Owns rest s.mem s.pool h)
    (hremain : s.pool.entryByteRemain = h.cur.size)
    (hpos : s.pool.entryBytePos = 0#32)
    (hh : Holds s.pool h s.regions)
    (hfits : size.toNat + 2 ^ k ≤ h.cur.size.toNat)
    (hlt : h.cur.size.toNat < 2 ^ 31) :
    Yields OutOfMemory
      (allocAligned place k size (fuel + 1) s.mem s.pool) fun r =>
        PoolInv rest (returned s size r) := by
  have hd : (padding k h s.pool).toNat < 2 ^ k := ptrDiff_lt _ (by omega)
  refine allocAligned_fit place hk hsize ho (.inl ⟨hpos, hremain⟩) hh ?_
  have hsub : (h.cur.size - padding k h s.pool).toNat
      = h.cur.size.toNat - (padding k h s.pool).toNat := by
    rw [BitVec.toNat_sub]
    omega
  have hsigned := signed (h.cur.size - padding k h s.pool)
  have hsigned' := signed size
  rw [hremain]
  simp only [BitVec.slt, decide_eq_false_iff_not]
  omega

/-- One turn: the object is cut from the current block or from one
opened for it, or the block's size has doubled. -/
theorem allocAligned_turn {fuel : Nat} {s : PoolState} {h : Holdings}
    (hk : k ≤ 20) (hsize : size.toNat < 1024) (hfuel : 0 < fuel)
    (ho : Owns rest s.mem s.pool h)
    (hroom : Room s.pool.entryByteRemain s.pool.entryBytePos h.cur.size)
    (hh : Holds s.pool h s.regions)
    (hdouble : ∀ m p b, b.size = h.cur.size * 2 →
      0 < (h.cur.size * 2).toNat →
      Owns rest m p ⟨h.old ++ [h.cur], b, h.large⟩ →
      Room p.entryByteRemain p.entryBytePos b.size →
      Holds p ⟨h.old ++ [h.cur], b, h.large⟩ s.regions →
      Yields OutOfMemory (allocAligned place k size fuel m p) fun r =>
        PoolInv rest (returned s size r)) :
    Yields OutOfMemory
      (allocAligned place k size (fuel + 1) s.mem s.pool) fun r =>
        PoolInv rest (returned s size r) := by
  have hpow : 2 ^ k ≤ 2 ^ 20 := Nat.pow_le_pow_right (by decide) hk
  have hpos := Nat.two_pow_pos k
  have halign : (1#32 <<< k).toNat = 2 ^ k := Bits.toNat_align (by omega)
  cases hfull : (s.pool.entryByteRemain - padding k h s.pool).slt size with
  | false => exact allocAligned_fit place hk hsize ho hroom hh hfull
  | true =>
      rw [allocAligned_retry place ho hfull]
      refine (nextEntry_yields place hsize (by omega) ho).bind
        fun ⟨m, p⟩ ⟨b, ho', hb, hremain, hpos'⟩ => ?_
      have hh' : Holds p ⟨h.old ++ [h.cur], b, h.large⟩ s.regions :=
        hh.next b
      rcases nextSize_cases h.cur.size hsize (show 0 < (1#32 <<< k).toNat
        ∧ (1#32 <<< k).toNat ≤ 2 ^ 20 by omega) with ⟨hn, -⟩ | ⟨hn, hle⟩
      · obtain ⟨fuel, rfl⟩ := Nat.exists_eq_succ_of_ne_zero
          (Nat.pos_iff_ne_zero.mp hfuel)
        rw [← hb] at hn
        exact allocAligned_opened place (s := ⟨m, p, s.regions⟩) hk hsize
          ho' hremain hpos' hh' (show _ ≤ b.size.toNat by omega)
          (show b.size.toNat < 2 ^ 31 by omega)
      · exact hdouble m p b (hb.trans hn) (by omega) ho'
          (.inl ⟨hpos', hremain⟩) hh'

/-- The retry loop ends: `t` doublings from where the block's size is
zero, `t + 2` turns are enough. Induction on `t`. -/
theorem allocAligned_yields (hk : k ≤ 20) (hsize : size.toNat < 1024) :
    ∀ (t fuel : Nat) {s : PoolState} {h : Holdings}, t + 2 ≤ fuel →
      h.cur.size.toNat * 2 ^ t % 2 ^ 32 = 0 →
      Owns rest s.mem s.pool h →
      Room s.pool.entryByteRemain s.pool.entryBytePos h.cur.size →
      Holds s.pool h s.regions →
      Yields OutOfMemory (allocAligned place k size fuel s.mem s.pool)
        fun r => PoolInv rest (returned s size r) := by
  have h2 : (2 : Word).toNat = 2 := rfl
  intro t
  induction t with
  | zero =>
      intro fuel s h hfuel hzero ho hroom hh
      obtain ⟨fuel, rfl⟩ := Nat.exists_eq_succ_of_ne_zero
        (show fuel ≠ 0 by omega)
      refine allocAligned_turn place hk hsize (by omega) ho hroom hh ?_
      intro m p b _ hpos _ _ _
      have hlt := h.cur.size.isLt
      rw [BitVec.toNat_mul, h2] at hpos
      omega
  | succ t ih =>
      intro fuel s h hfuel hzero ho hroom hh
      obtain ⟨fuel, rfl⟩ := Nat.exists_eq_succ_of_ne_zero
        (show fuel ≠ 0 by omega)
      refine allocAligned_turn place hk hsize (by omega) ho hroom hh ?_
      intro m p b hb _ ho' hroom' hh'
      refine ih fuel (s := ⟨m, p, s.regions⟩) (by omega) ?_ ho' hroom' hh'
      show b.size.toNat * 2 ^ t % 2 ^ 32 = 0
      rw [hb, BitVec.toNat_mul, h2, Nat.mod_mul_mod, Nat.mul_assoc,
        ← Nat.pow_succ']
      exact hzero

end

-- ============================================================ the calls

/-- `npr_mempool_alloc_align_stat` returns a region of its own. -/
theorem mempoolAllocAlignStat_yields (place : Placement) {fuel : Nat}
    (hfuel : 34 ≤ fuel) {rest : List Block} {s : PoolState}
    (hi : PoolInv rest s) {alignShift : Word} (hshift : alignShift.toNat ≤ 20)
    (size : Word) :
    Yields OutOfMemory
      (mempoolAllocAlignStat place fuel s.mem s.pool alignShift size)
      fun r => PoolInv rest (returned s size r) := by
  unfold mempoolAllocAlignStat
  by_cases hlarge : 1024#32 ≤ size
  · rw [if_pos hlarge]
    exact allocLarge_yields place hlarge hi
  · rw [if_neg hlarge]
    have hsize : size.toNat < 1024 := by
      have hnot : ¬ (1024#32).toNat ≤ size.toNat := hlarge
      have h1024 : (1024#32).toNat = 1024 := rfl
      omega
    obtain ⟨h, ho, hroom, hh⟩ := hi
    exact allocAligned_yields place hshift hsize 32 fuel (by omega)
      (Nat.mul_mod_left _ _) ho hroom hh

end UdeBench.Npr
