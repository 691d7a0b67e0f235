/-
The memory pool of npr/mempool-c.c, as the build makes it: `GATHER_STAT`
off, and 32-bit pointers, since the `instbench` of the Makefile, which it
is linked into, runs the A32 code it generates.

Small objects are cut from the pool's current block, which is replaced
by one of twice the size when they do not fit; objects from 1024 bytes
on get a block of their own. Fields are the 32-bit numbers they are in
the source, with their wraparound; where the source keeps one in an
`int` it is the same word, read as signed.

The `goto retry` of the allocation is a recursion on fuel: running out
of it is the error `noReturn`.
-/
import UdeBench.Npr.Malloc

namespace UdeBench.Npr

/-- `struct npr_mempool`. -/
structure Mempool where
  entryNum : Word
  entryIndex : Word
  entryByteSize : Word
  entryByteRemain : Word
  entryBytePos : Word
  dataEntry : PtrArray
  largeNum : Word
  largeIndex : Word
  large : PtrArray
  allocSmall : Word
deriving DecidableEq, Repr

/-- `roundup2` of npr/bits.h. -/
def roundup2 (x : Word) : Word :=
  let x := x - 1
  let x := x ||| (x >>> 1)
  let x := x ||| (x >>> 2)
  let x := x ||| (x >>> 4)
  let x := x ||| (x >>> 8)
  let x := x ||| (x >>> 16)
  x + 1

/-- `npr_mempool_init`. -/
def mempoolInit (place : Placement) (m : Mem) (sizeHint : Word) :
    Except MemError (Mem × Mempool) := do
  let entryNum : Word := 16
  let (m, dataEntry) ← mallocPtrs place m entryNum
  let (m, p) ← malloc place m sizeHint
  let dataEntry ← dataEntry.write entryNum 0 p
  let largeNum : Word := 16
  let (m, large) ← mallocPtrs place m largeNum
  .ok (m, { entryNum, entryIndex := 0, entryByteSize := sizeHint
            entryByteRemain := sizeHint, entryBytePos := 0, dataEntry
            largeNum, largeIndex := 0, large, allocSmall := 0 })

/-- The loops of `npr_mempool_destroy`: the first `n` pointers of an
array freed. -/
def freePtrs (a : PtrArray) (m : Mem) (n : Nat) : Except MemError Mem :=
  (List.range n).foldlM (fun m i => do
    let p ← a.read (BitVec.ofNat 32 i)
    free m p) m

/-- `npr_mempool_destroy`: both loops count in `int`. -/
def mempoolDestroy (m : Mem) (pool : Mempool) : Except MemError Mem := do
  let m ← freePtrs pool.dataEntry m (pool.entryIndex.toInt + 1).toNat
  let m ← free m pool.dataEntry.base
  let m ← freePtrs pool.large m pool.largeIndex.toInt.toNat
  free m pool.large.base

/-- `npr_mempool_clear`. -/
def mempoolClear (place : Placement) (m : Mem) (p : Mempool) :
    Except MemError (Mem × Mempool) :=
  if p.entryIndex = 0 ∧ p.largeIndex = 0 then
    .ok (m, { p with entryBytePos := 0 })
  else do
    let m ← mempoolDestroy m p
    mempoolInit place m (roundup2 p.allocSmall)

/-- The part of `alloc_large` that makes room in the array. -/
def growLarge (place : Placement) (m : Mem) (pool : Mempool) :
    Except MemError (Mem × Mempool) :=
  if pool.largeNum ≤ pool.largeIndex + 1 then do
    let largeNum := pool.largeNum * 2
    let (m, large) ← reallocPtrs place m pool.large largeNum
    .ok (m, { pool with largeNum, large })
  else .ok (m, pool)

/-- `alloc_large`. -/
def allocLarge (place : Placement) (m : Mem) (pool : Mempool)
    (size : Word) : Except MemError (Mem × Mempool × Word) := do
  let (m, pool) ← growLarge place m pool
  let (m, ret) ← malloc place m size
  let large ← pool.large.write pool.largeNum pool.largeIndex ret
  .ok (m, { pool with large, largeIndex := pool.largeIndex + 1 }, ret)

/-- The part of the allocation that makes room in the array of
blocks. -/
def growEntries (place : Placement) (m : Mem) (pool : Mempool)
    (nextEntryIndex : Word) : Except MemError (Mem × Mempool) :=
  if pool.entryNum ≤ nextEntryIndex then do
    let nextEntryNum := pool.entryNum * 2
    let (m, dataEntry) ← reallocPtrs place m pool.dataEntry nextEntryNum
    .ok (m, { pool with dataEntry, entryNum := nextEntryNum })
  else .ok (m, pool)

/-- The size of the block that follows one of `entryByteSize` bytes. -/
def nextSize (entryByteSize align size : Word) : Word :=
  let allocSize := entryByteSize * 2
  if allocSize < size + align then (size + align) * 2 else allocSize

/-- The part of the allocation that opens a new block. -/
def nextEntry (place : Placement) (m : Mem) (pool : Mempool)
    (align size : Word) : Except MemError (Mem × Mempool) := do
  let nextEntryIndex := pool.entryIndex + 1
  let allocSize := nextSize pool.entryByteSize align size
  let (m, pool) ← growEntries place m pool nextEntryIndex
  let pool := { pool with
    entryByteRemain := allocSize
    entryByteSize := allocSize
    entryIndex := nextEntryIndex
    entryBytePos := 0 }
  let (m, p) ← malloc place m allocSize
  let dataEntry ← pool.dataEntry.write pool.entryNum nextEntryIndex p
  .ok (m, { pool with dataEntry })

/-- The allocation from `retry` on. -/
def allocRetry (place : Placement) (align alignMask alignedSize size : Word) :
    Nat → Mem → Mempool → Except MemError (Mem × Mempool × Word)
  | 0, _, _ => .error .noReturn
  | fuel + 1, m, pool => do
      let entry ← pool.dataEntry.read pool.entryIndex
      let ptr := entry + pool.entryBytePos
      let ptrAligned := (ptr + (align - 1)) &&& alignMask
      let ptrDiff := ptrAligned - ptr
      let remain := pool.entryByteRemain - ptrDiff
      if remain.slt size then do
        let (m, pool) ← nextEntry place m pool align size
        allocRetry place align alignMask alignedSize size fuel m pool
      else
        let allocSize := ptrDiff + alignedSize
        let remain := remain - allocSize
        .ok (m, { pool with
          entryByteRemain := remain
          entryBytePos := pool.entryBytePos + allocSize
          allocSmall := pool.allocSmall + allocSize }, ptrAligned)

/-- `npr_mempool_alloc_align_stat`. -/
def mempoolAllocAlignStat (place : Placement) (fuel : Nat) (m : Mem)
    (pool : Mempool) (alignShift size : Word) :
    Except MemError (Mem × Mempool × Word) :=
  if 1024#32 ≤ size then allocLarge place m pool size
  else
    let align : Word := 1#32 <<< alignShift.toNat
    let alignMask : Word := ~~~((1#32 <<< alignShift.toNat) - 1)
    let alignedSize := (size + (align - 1)) &&& alignMask
    allocRetry place align alignMask alignedSize size fuel m pool

/-- `npr_mempool_alloc`. -/
def mempoolAlloc (place : Placement) (fuel : Nat) (m : Mem) (p : Mempool)
    (s : Word) : Except MemError (Mem × Mempool × Word) :=
  mempoolAllocAlignStat place fuel m p 3 s

/-- `npr_mempool_strdup`, of a string of length `len`. -/
def mempoolStrdup (place : Placement) (fuel : Nat) (m : Mem) (p : Mempool)
    (len : Word) : Except MemError (Mem × Mempool × Word) := do
  let (m, p, mem) ← mempoolAlloc place fuel m p (len + 1)
  writeBytes m mem len
  writeBytes m (mem + len) 1
  .ok (m, p, mem)

/-- `npr_mempool_strndup`. -/
def mempoolStrndup (place : Placement) (fuel : Nat) (m : Mem)
    (p : Mempool) (len : Word) : Except MemError (Mem × Mempool × Word) := do
  let (m, p, mem) ← mempoolAlloc place fuel m p (len + 1)
  writeBytes m mem len
  writeBytes m (mem + len) 1
  .ok (m, p, mem)

/-- `npr_mempool_copy`. -/
def mempoolCopy (place : Placement) (fuel : Nat) (m : Mem) (p : Mempool)
    (len : Word) : Except MemError (Mem × Mempool × Word) := do
  let (m, p, mem) ← mempoolAlloc place fuel m p len
  writeBytes m mem len
  .ok (m, p, mem)

-- ================================================================= runs

/-- A call on a pool. -/
inductive PoolCall
  | alloc (alignShift size : Word)
  | strdup (len : Word)
  | strndup (len : Word)
  | copy (len : Word)
  | clear
deriving DecidableEq, Repr

/-- A pool in use: what it has returned since it was last cleared. -/
structure PoolState where
  mem : Mem
  pool : Mempool
  regions : List Block
deriving DecidableEq, Repr

/-- What an allocation returned, remembered with its size. -/
def returned (s : PoolState) (size : Word) :
    Mem × Mempool × Word → PoolState
  | (m, p, ret) => ⟨m, p, ⟨ret, size⟩ :: s.regions⟩

/-- One call. -/
def PoolCall.exec (place : Placement) (fuel : Nat) (s : PoolState) :
    PoolCall → Except MemError PoolState
  | alloc alignShift size => do
      let r ← mempoolAllocAlignStat place fuel s.mem s.pool alignShift size
      .ok (returned s size r)
  | strdup len => do
      let r ← mempoolStrdup place fuel s.mem s.pool len
      .ok (returned s (len + 1) r)
  | strndup len => do
      let r ← mempoolStrndup place fuel s.mem s.pool len
      .ok (returned s (len + 1) r)
  | copy len => do
      let r ← mempoolCopy place fuel s.mem s.pool len
      .ok (returned s len r)
  | clear => do
      let (m, p) ← mempoolClear place s.mem s.pool
      .ok ⟨m, p, []⟩

/-- `npr_mempool_init` and a run of calls. -/
def poolRun (place : Placement) (fuel : Nat) (m : Mem) (sizeHint : Word)
    (cs : List PoolCall) : Except MemError PoolState := do
  let (m, p) ← mempoolInit place m sizeHint
  cs.foldlM (PoolCall.exec place fuel) ⟨m, p, []⟩

end UdeBench.Npr
