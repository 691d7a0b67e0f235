/-
The first-fit heap of npr/heap.c, on an LP64 target.

# Memory

The two lists of the heap run through memory it manages itself: a free
chunk is `sz`, `next`, `prev` in its first 24 bytes, a page starts with
`next`, `prev`, `flags`, `page_size`. The last four bytes of a chunk are
its tag, its size and two bits. All of that is bytes (`ByteMem`), shared
with what the program keeps in its allocations. The ends of the lists
lie in `struct npr_heap` and are in memory, too; its other fields, which
no pointer reaches, are the fields of `Heap`.

# The system

`mmap` answers with a region of zeros that is fresh: aligned to a page
and apart from what is mapped and from the heap's own struct. Where it
puts it is a parameter. A size of zero, or no fresh region there, is
`mmapFailed`, which the code does not check for. The only range the code
unmaps is a whole region.

The search of the free list is a recursion on fuel: running out of it is
the error `noReturn`. A failed `assert` is `assertFailed`.
-/
import UdeBench.Lib.DList

namespace UdeBench.Npr.FirstFit

open Spans ByteMem

/-- A `size_t`. -/
abbrev Size := BitVec 64

/-- An `int`, and a `chunksize_t`. -/
abbrev Word := BitVec 32

/-- What can go wrong. -/
inductive HeapError
  | mmapFailed | assertFailed | noReturn
deriving DecidableEq, Repr

-- =============================================================== system

/-- A mapped region. -/
structure Region where
  base : Addr
  size : Size
deriving DecidableEq, Repr

def Region.span (r : Region) : Span := (r.base.toNat, r.size.toNat)

/-- The system: its page size, what else there is in memory, the mapped
regions and the calls of `mmap` it has answered. -/
structure Os where
  pageSize : Word
  taken : Span
  mapped : List Region
  calls : Nat
deriving Repr

/-- Where the system puts the regions of its calls. -/
abbrev Placement := Nat → Addr

/-- A region that may be mapped. -/
def Fresh (os : Os) (r : Region) : Prop :=
  0 < r.size.toNat ∧ r.base.toNat % os.pageSize.toNat = 0
    ∧ r.base.toNat + r.size.toNat ≤ 2 ^ 63 ∧ Apart r.span os.taken
    ∧ ∀ q ∈ os.mapped, Apart r.span q.span

instance (os : Os) (r : Region) : Decidable (Fresh os r) :=
  inferInstanceAs (Decidable (_ ∧ _ ∧ _ ∧ _ ∧ ∀ q ∈ os.mapped, _))

-- ================================================================= heap

/-- `struct npr_heap`, at its address. -/
structure Heap where
  addr : Addr
  pageSize : Word
  chunkSize : Word
  pfnMask : Addr
deriving DecidableEq, Repr

/-- `&h->free_head` and the other ends of the two lists. -/
def Heap.freeHead (h : Heap) : Addr := h.addr + 24
def Heap.freeTail (h : Heap) : Addr := h.addr + 48
def Heap.pageHead (h : Heap) : Addr := h.addr + 72
def Heap.pageTail (h : Heap) : Addr := h.addr + 96

/-- `sizeof(struct npr_heap)`. -/
def sizeofHeap : Nat := 120

/-- The memory, the system and the heap. -/
structure Sys where
  mem : ByteMem
  os : Os
  heap : Heap

/-- `alloc_page`. -/
def allocPage (place : Placement) (s : Sys) (sz : Size) :
    Except HeapError (Sys × Addr) :=
  let r : Region := ⟨place s.os.calls, sz⟩
  if Fresh s.os r then
    .ok ({ s with
      mem := s.mem.zeroFill r.span
      os := { s.os with mapped := r :: s.os.mapped
                        calls := s.os.calls + 1 } }, r.base)
  else .error .mmapFailed

/-- `free_page`. -/
def freePage (s : Sys) (p : Addr) (sz : Size) : Sys :=
  { s with os := { s.os with mapped := s.os.mapped.erase ⟨p, sz⟩ } }

/-- `SIZEOF_PAGE_HEADER`, and the bits of a tag. -/
def sizeofPageHeader : Size := 32
def nextAllocatedBit : Word := 0x80000000
def thisAllocatedBit : Word := 0x40000000
def sizeMask : Word := 0x3fffffff

/-- `NPR_LARGE_CHUNK`. -/
def nprLargeChunk : Word := 1

/-- `npr_popcnt32` and `npr_bsf32` of npr/bits.h. -/
def popcnt32 (v : Word) : Nat := (List.range 32).countP v.getLsbD
def bsf32 (v : Word) : Nat := ((List.range 32).find? v.getLsbD).getD 0

/-- Where the links are: behind `sz` in a free chunk, first in a page
header. -/
def freeLinks : Addr := 8
def pageLinks : Addr := 0

/-- `add_page`, `del_page`. -/
def addPage (h : Heap) (m : ByteMem) (ph : Addr) : ByteMem :=
  DList.pushFront pageLinks m h.pageHead ph

def delPage (m : ByteMem) (ph : Addr) : ByteMem :=
  DList.remove pageLinks m ph

/-- `add_free`, `del_free`. -/
def addFree (h : Heap) (m : ByteMem) (f : Addr) : ByteMem :=
  DList.pushBack freeLinks m h.freeTail f

def delFree (m : ByteMem) (f : Addr) : ByteMem :=
  DList.remove freeLinks m f

/-- `npr_heap_init`, of the struct at `addr`. -/
def heapInit (os : Os) (m : ByteMem) (addr : Addr) : Except HeapError Sys :=
  let ps := os.pageSize
  if popcnt32 ps = 1 then
    let shift := bsf32 ps
    let h : Heap := { addr, pageSize := ps, chunkSize := ps
                      pfnMask := ~~~((1#64 <<< shift) - 1) }
    let m := DList.setNext pageLinks m h.pageHead h.pageTail
    let m := DList.setPrev pageLinks m h.pageTail h.pageHead
    let m := DList.setNext freeLinks m h.freeHead h.freeTail
    let m := DList.setPrev freeLinks m h.freeTail h.freeHead
    .ok ⟨m, os, h⟩
  else .error .assertFailed

/-- `ALIGN_UP`. -/
def alignUp (v align : Size) : Size := (v + (align - 1)) &&& ~~~(align - 1)

/-- `calc_alloc_size`. -/
def calcAllocSize (n : Size) : Size := alignUp (n + 4) 8

/-- The test for a large allocation, on the page size as an `int`. -/
def IsLarge (pageSize : Word) (allocSize : Size) : Prop :=
  (pageSize - 128).signExtend 64 ≤ allocSize

instance (pageSize : Word) (allocSize : Size) :
    Decidable (IsLarge pageSize allocSize) :=
  inferInstanceAs (Decidable (_ ≤ _))

/-- The size of a large region. -/
def largeSize (pageSize : Word) (allocSize : Size) : Size :=
  alignUp (allocSize + sizeofPageHeader) (pageSize.signExtend 64)

/-- The offset of an address in its page. -/
def Heap.pageOffset (h : Heap) (a : Addr) : Addr := a &&& ~~~h.pfnMask

-- ================================================================ alloc

/-- A large allocation. -/
def allocLarge (place : Placement) (s : Sys) (allocSize : Size) :
    Except HeapError (Sys × Addr) := do
  let allocSize := largeSize s.heap.pageSize allocSize
  let (s, page) ← allocPage place s allocSize
  let m := s.mem.store32 (page + 16) nprLargeChunk
  let m := m.store32 (page + 20) (allocSize.setWidth 32)
  .ok ({ s with mem := addPage s.heap m page }, page + sizeofPageHeader)

/-- The search for a free chunk, from `f` on. -/
def firstFit (h : Heap) (m : ByteMem) (allocSize : Size) :
    Nat → Addr → Except HeapError (Option Addr)
  | 0, _ => .error .noReturn
  | fuel + 1, f =>
      if f = h.freeTail then .ok none
      else if allocSize ≤ m.load64 f then .ok (some f)
      else firstFit h m allocSize fuel (DList.next freeLinks m f)

/-- A new page, where nothing was found: one free chunk, not in the
list. -/
def newPage (place : Placement) (s : Sys) : Except HeapError (Sys × Addr) := do
  let cs : Size := s.heap.chunkSize.signExtend 64
  let (s, page) ← allocPage place s cs
  let h := { s.heap with chunkSize := s.heap.chunkSize * 2 }
  let m := s.mem.store32 (page + 16) 0
  let m := addPage h m page
  let f := page + sizeofPageHeader
  let m := m.store64 f (cs - sizeofPageHeader)
  .ok ({ s with mem := m, heap := h }, f)

/-- The part of the allocation from `found` on. -/
def found (h : Heap) (m : ByteMem) (f : Addr) (allocSize : Size) : ByteMem :=
  let nextAddr := f + allocSize
  let sizeAddr := nextAddr - 4
  let m := m.store32 sizeAddr (allocSize.setWidth 32 ||| thisAllocatedBit)
  let m :=
    if allocSize < m.load64 f then
      let fn := nextAddr
      addFree h (m.store64 fn (m.load64 f - allocSize)) fn
    else m
  if h.pageOffset f ≠ sizeofPageHeader then
    let prevSize := f - 4
    m.store32 prevSize (m.load32 prevSize ||| nextAllocatedBit)
  else m

/-- `npr_heap_alloc`. -/
def heapAlloc (place : Placement) (fuel : Nat) (s : Sys) (n : Size) :
    Except HeapError (Sys × Addr) := do
  let allocSize := calcAllocSize n
  if IsLarge s.heap.pageSize allocSize then
    allocLarge place s allocSize
  else
    match ← firstFit s.heap s.mem allocSize fuel
        (DList.next freeLinks s.mem s.heap.freeHead) with
    | some f =>
        let m := delFree s.mem f
        .ok ({ s with mem := found s.heap m f allocSize }, f)
    | none =>
        let (s, f) ← newPage place s
        .ok ({ s with mem := found s.heap s.mem f allocSize }, f)

-- ================================================================= free

/-- The part of `npr_heap_free` that looks at what is behind the
chunk. -/
def freeNext (h : Heap) (m : ByteMem) (cur : Addr) (allocSize : Size) :
    Except HeapError ByteMem :=
  let nextAddr := cur + allocSize
  let csz := nextAddr - 4
  if h.pageOffset nextAddr = 0 then
    .ok (m.store64 cur allocSize)
  else if allocSize = (m.load32 csz &&& sizeMask).setWidth 64 then
    if m.load32 csz &&& nextAllocatedBit = 0 then
      -- merge next chunk
      let next := nextAddr
      let m := delFree m next
      let mergeSz := allocSize + m.load64 next
      let nsz := nextAddr + m.load64 next - 4
      let m := m.store64 cur mergeSz
      .ok (m.store32 nsz (mergeSz.setWidth 32 ||| nextAllocatedBit))
    else
      let m := m.store64 cur allocSize
      .ok (m.store32 csz (allocSize.setWidth 32 ||| nextAllocatedBit))
  else .error .assertFailed

/-- The part that looks at what is in front of it. -/
def freePrev (h : Heap) (m : ByteMem) (cur : Addr) : ByteMem :=
  if h.pageOffset cur = sizeofPageHeader then
    addFree h m cur
  else
    let prevSizeAddr := cur - 4
    let prevSize := m.load32 prevSizeAddr
    if prevSize &&& thisAllocatedBit ≠ 0 then
      let m := addFree h m cur
      m.store32 prevSizeAddr (m.load32 prevSizeAddr &&& ~~~nextAllocatedBit)
    else
      -- merge prev chunk
      let prev := cur - (prevSize &&& sizeMask).setWidth 64
      let mergeSz := m.load64 cur + m.load64 prev
      let m := m.store64 prev mergeSz
      let sizeAddr := prev + mergeSz - 4
      m.store32 sizeAddr (mergeSz.setWidth 32 ||| nextAllocatedBit)

/-- A large allocation given back. -/
def freeLarge (s : Sys) (p : Addr) (allocSize : Size) : Sys :=
  let ph := p &&& s.heap.pfnMask
  let s := { s with mem := delPage s.mem ph }
  freePage s (p - sizeofPageHeader) (largeSize s.heap.pageSize allocSize)

/-- `npr_heap_free`. -/
def heapFree (s : Sys) (p : Addr) (n : Size) : Except HeapError Sys := do
  let allocSize := calcAllocSize n
  if IsLarge s.heap.pageSize allocSize then
    .ok (freeLarge s p allocSize)
  else
    let m ← freeNext s.heap s.mem p allocSize
    .ok { s with mem := freePrev s.heap m p }

-- ================================================================= runs

/-- An allocation the program holds: `n` bytes at `p`. -/
structure Alloc where
  p : Addr
  n : Size
deriving DecidableEq, Repr

/-- The bytes of an allocation. -/
def Alloc.payload (a : Alloc) : Span := (a.p.toNat, a.n.toNat)

/-- A heap in use: what the program holds, and the calls it has made. -/
structure HeapState where
  sys : Sys
  live : List Alloc
  calls : Nat

/-- What the program does: the two calls, and stores of its own. -/
inductive HeapCall
  | alloc (n : Size)
  | free (p : Addr) (n : Size)
  | write (a : Addr) (v : BitVec 8)
deriving DecidableEq, Repr

/-- One step. There are at most as many free chunks as there were calls,
which is the fuel of the search. -/
def HeapCall.exec (place : Placement) (s : HeapState) :
    HeapCall → Except HeapError HeapState
  | alloc n => do
      let (sys, p) ← heapAlloc place (s.calls + 1) s.sys n
      .ok ⟨sys, ⟨p, n⟩ :: s.live, s.calls + 1⟩
  | free p n => do
      let sys ← heapFree s.sys p n
      .ok ⟨sys, s.live.erase ⟨p, n⟩, s.calls + 1⟩
  | write a v =>
      .ok { s with sys := { s.sys with mem := s.sys.mem.store8 a v } }

/-- A run of steps. -/
def heapRun (place : Placement) (s : HeapState) (cs : List HeapCall) :
    Except HeapError HeapState :=
  cs.foldlM (HeapCall.exec place) s

end UdeBench.Npr.FirstFit
