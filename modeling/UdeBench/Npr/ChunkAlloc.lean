/-
The chunk allocator of npr/chunk-alloc.c, on an LP64 target.

# Representation

A free element is a pointer to the next one in its first eight bytes, and
a chunk is a header of two pointers (`data`, `chain`) that `malloc` gave,
behind a block of elements that it gave, too. All of them are bytes
(`ByteMem`), shared with what the program keeps in its elements. The
fields of `struct npr_chunk_allocator`, which no pointer reaches, are
those of `Allocator`.

`elem_size` and `chunk_count` are `int`s, and so are the products the
code makes of them: they wrap around, and are extended by their sign
where a `size_t` or an offset is expected.

# Accesses

What the allocator reads and writes must lie in the blocks that `malloc`
gave. The loop of `npr_chunk_allocator_fini` is a recursion on fuel:
running out of it is the error `noReturn`.

`npr_chunk_allocator_stat`, which prints, is left out.
-/
import UdeBench.Lib.Blocks

namespace UdeBench.Npr.ChunkAlloc

open Spans ByteMem
open Blocks (Fault Sys)

/-- An `int`. -/
abbrev Word := BitVec 32

/-- `struct npr_chunk_allocator`. -/
structure Allocator where
  top : Addr
  elemSize : Word
  chunkCount : Word
  chunks : Addr
deriving DecidableEq, Repr

-- ================================================================= chunks

/-- `buf + i*elem_size`. -/
def elemAt (buf : Addr) (elemSize i : Word) : Addr :=
  buf + (i * elemSize).signExtend 64

/-- `&c->chain`. -/
def chainOf (c : Addr) : Addr := c + 8

/-- `sizeof(struct npr_chunk_allocator_chunk)`. -/
def sizeofChunk : Blocks.Size := 16

/-- The first `n` rounds of the loop of `alloc_chunk`: `e->chain = next`. -/
def threadElems (s : Sys) (buf : Addr) (elemSize : Word) (n : Nat) :
    Except Fault Sys :=
  (List.range n).foldlM (fun s i =>
    Blocks.store s (elemAt buf elemSize (BitVec.ofNat 32 i))
      (elemAt buf elemSize (BitVec.ofNat 32 i + 1))) s

section
variable (place : Blocks.Placement)

/-- `alloc_chunk`: both loop bound and offsets are `int`s. -/
def allocChunk (s : Sys) (elemSize chunkCount : Word) :
    Except Fault (Sys × Addr) := do
  let (s, buf) ← Blocks.malloc place s
    ((elemSize * chunkCount).signExtend 64)
  let s ← threadElems s buf elemSize (chunkCount - 1).toInt.toNat
  let s ← Blocks.store s (elemAt buf elemSize (chunkCount - 1)) 0
  let (s, c) ← Blocks.malloc place s sizeofChunk
  let s ← Blocks.store s (chainOf c) 0
  let s ← Blocks.store s c buf
  .ok (s, c)

-- ============================================================== operations

/-- `npr_chunk_allocator_init`. -/
def chunkAllocatorInit (s : Sys) (elemSize chunkCount : Word) :
    Except Fault (Sys × Allocator) := do
  let (s, c) ← allocChunk place s elemSize chunkCount
  let top ← Blocks.load s c
  .ok (s, { top, elemSize, chunkCount, chunks := c })

/-- `npr_chunk_allocator_alloc`. -/
def chunkAllocatorAlloc (s : Sys) (a : Allocator) :
    Except Fault (Sys × Allocator × Addr) :=
  if a.top ≠ 0 then do
    let next ← Blocks.load s a.top
    .ok (s, { a with top := next }, a.top)
  else do
    let (s, c) ← allocChunk place s a.elemSize a.chunkCount
    let s ← Blocks.store s (chainOf c) a.chunks
    let e ← Blocks.load s c
    let top ← Blocks.load s e
    .ok (s, { a with chunks := c, top }, e)

end

/-- `npr_chunk_allocator_free`. -/
def chunkAllocatorFree (s : Sys) (a : Allocator) (data : Addr) :
    Except Fault (Sys × Allocator) := do
  let s ← Blocks.store s data a.top
  .ok (s, { a with top := data })

/-- The loop of `npr_chunk_allocator_fini`, from a chunk on. -/
def finiFrom : Nat → Sys → Addr → Except Fault Sys
  | 0, _, _ => .error .noReturn
  | fuel + 1, s, c =>
      if c = 0 then .ok s
      else do
        let n ← Blocks.load s (chainOf c)
        let data ← Blocks.load s c
        let s ← Blocks.free s data
        let s ← Blocks.free s c
        finiFrom fuel s n

/-- `npr_chunk_allocator_fini`. -/
def chunkAllocatorFini (fuel : Nat) (s : Sys) (a : Allocator) :
    Except Fault Sys :=
  finiFrom fuel s a.chunks

-- ==================================================================== runs

/-- What a program does with an allocator. -/
inductive ChunkCall
  | alloc
  | free (p : Addr)
  | write (a : Addr) (v : BitVec 8)
deriving DecidableEq, Repr

/-- An allocator in use, with the elements that it has returned and that
were not freed since. -/
structure ChunkState where
  sys : Sys
  alloc : Allocator
  live : List Addr

section
variable (place : Blocks.Placement)

/-- One call. -/
def ChunkCall.exec (s : ChunkState) : ChunkCall → Except Fault ChunkState
  | alloc => do
      let (sys, a, p) ← chunkAllocatorAlloc place s.sys s.alloc
      .ok ⟨sys, a, p :: s.live⟩
  | free p => do
      let (sys, a) ← chunkAllocatorFree s.sys s.alloc p
      .ok ⟨sys, a, s.live.erase p⟩
  | write a v =>
      .ok { s with sys := { s.sys with mem := s.sys.mem.store8 a v } }

/-- A system without blocks. -/
def boot (mem : ByteMem) (taken : Span) : Sys := ⟨mem, taken, [], 0, []⟩

/-- An allocator that has just been set up. -/
def chunkInit (mem : ByteMem) (taken : Span) (elemSize chunkCount : Word) :
    Except Fault ChunkState := do
  let (sys, a) ← chunkAllocatorInit place (boot mem taken) elemSize
    chunkCount
  .ok ⟨sys, a, []⟩

/-- `npr_chunk_allocator_init` and a run of calls. -/
def chunkRun (mem : ByteMem) (taken : Span) (elemSize chunkCount : Word)
    (cs : List ChunkCall) : Except Fault ChunkState := do
  let s ← chunkInit place mem taken elemSize chunkCount
  cs.foldlM (ChunkCall.exec place) s

end

/-- What a call may be: the free of a live element, and a write into one
or outside the allocator's memory. -/
def ChunkCall.Valid (s : ChunkState) : ChunkCall → Prop
  | alloc => True
  | free p => p ∈ s.live
  | write a _ =>
      (∃ p ∈ s.live, p.toNat ≤ a.toNat
        ∧ a.toNat < p.toNat + s.alloc.elemSize.toNat)
      ∨ ∀ b ∈ s.sys.live, Apart (a.toNat, 1) b.span

instance (s : ChunkState) : (c : ChunkCall) → Decidable (c.Valid s)
  | .alloc => inferInstanceAs (Decidable True)
  | .free p => inferInstanceAs (Decidable (p ∈ s.live))
  | .write a _ => inferInstanceAs (Decidable ((∃ p ∈ s.live,
      p.toNat ≤ a.toNat ∧ a.toNat < p.toNat + s.alloc.elemSize.toNat)
      ∨ ∀ b ∈ s.sys.live, Apart (a.toNat, 1) b.span))

end UdeBench.Npr.ChunkAlloc
