/-
`npr_heap_fini`, and what the heap asks of the system in the course of
its life.

# munmap

The system unmaps the range it is given, unless the range is empty or
does not end in the part of the address space that programs have: then
it unmaps nothing, and the code does not look. The sizes that reach it
are an `int` each in `npr_heap_fini`, and a `size_t` in `npr_heap_free`.

# The book

`Book` is a heap in use with the mappings it was given and those it
returned, in order. How long a search of the free list may take is a
parameter of the run here, so that a free list that was written over is
not ruled out.
-/
import UdeBench.Lib.Leases
import UdeBench.Npr.Heap

namespace UdeBench.Npr.FirstFit

open Spans ByteMem Leases

-- ================================================================ system

/-- `free_page`, as the range that is unmapped. -/
def munmap (p : Addr) (sz : Size) : Option Region :=
  if 0 < sz.toNat ∧ p.toNat + sz.toNat ≤ 2 ^ 63 then some ⟨p, sz⟩ else none

-- ================================================================== fini

/-- The size that `npr_heap_fini` gives back of a page. -/
def finiSize (h : Heap) (m : ByteMem) (ph : Addr) : Word :=
  if m.load32 (ph + 16) &&& nprLargeChunk ≠ 0 then m.load32 (ph + 20)
  else h.pageSize

/-- The loop of `npr_heap_fini`, from a page on: the ranges that are
unmapped. -/
def finiFrom (h : Heap) (m : ByteMem) :
    Nat → Addr → Except HeapError (List Region)
  | 0, _ => .error .noReturn
  | fuel + 1, ph =>
      if ph = h.pageTail then .ok []
      else do
        let next := DList.next pageLinks m ph
        let r := munmap ph ((finiSize h m ph).signExtend 64)
        let rs ← finiFrom h m fuel next
        .ok (r.toList ++ rs)

/-- `npr_heap_fini`. -/
def heapFini (fuel : Nat) (s : Sys) : Except HeapError (List Region) :=
  finiFrom s.heap s.mem fuel (DList.next pageLinks s.mem s.heap.pageHead)

-- ================================================================== runs

/-- A heap in use, and what was mapped and unmapped. -/
structure Book where
  sys : Sys
  live : List Alloc
  events : List Event

/-- What `mmap` gave between two states. -/
def given (s s' : Sys) : List Event :=
  (s'.os.mapped.filter fun r => r ∉ s.os.mapped).map fun r => .given r.span

/-- What was unmapped. -/
def returned (rs : List Region) : List Event :=
  rs.map fun r => .returned r.span

/-- What `npr_heap_free` unmaps. -/
def freeUnmaps (h : Heap) (p : Addr) (n : Size) : List Region :=
  if IsLarge h.pageSize (calcAllocSize n) then
    (munmap (p - sizeofPageHeader)
      (largeSize h.pageSize (calcAllocSize n))).toList
  else []

/-- One step. -/
def Book.exec (place : Placement) (fuel : Nat) (b : Book) :
    HeapCall → Except HeapError Book
  | .alloc n => do
      let (sys, p) ← heapAlloc place fuel b.sys n
      .ok ⟨sys, ⟨p, n⟩ :: b.live, b.events ++ given b.sys sys⟩
  | .free p n => do
      let sys ← heapFree b.sys p n
      .ok ⟨sys, b.live.erase ⟨p, n⟩,
        b.events ++ returned (freeUnmaps b.sys.heap p n)⟩
  | .write a v =>
      .ok { b with sys := { b.sys with mem := b.sys.mem.store8 a v } }

/-- A run of steps. -/
def bookRun (place : Placement) (fuel : Nat) (b : Book)
    (cs : List HeapCall) : Except HeapError Book :=
  cs.foldlM (Book.exec place fuel) b

end UdeBench.Npr.FirstFit
