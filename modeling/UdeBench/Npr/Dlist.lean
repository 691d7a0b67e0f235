/-
The doubly linked list of npr/list.c, on an LP64 target. Its elements come
from the chunk allocator.

# Representation

An element is `next`, `prev` and `val`, eight bytes each. The allocator
takes its elements back when they are removed, and then keeps its own
pointer in the first eight bytes, where `next` was. The ends of the list
lie in `struct npr_dlist`, which is the program's own object in memory;
the fields of its allocator, which no pointer reaches, are the field `a`
of `Dlist`.

The loop of `NPR_DLIST_FOR_EACH` is a recursion on fuel: running out of it
is the error `noReturn`. `npr_dlist_fini` is
`npr_chunk_allocator_fini`.
-/
import UdeBench.Lib.DList
import UdeBench.Npr.ChunkAlloc

namespace UdeBench.Npr.LinkedList

open Spans ByteMem
open Blocks (Fault Sys)
open ChunkAlloc (Allocator)

/-- `struct npr_dlist`, at its address. -/
structure Dlist where
  addr : Addr
  a : Allocator
deriving DecidableEq, Repr

/-- `&l->head` and `&l->tail`. -/
def Dlist.head (l : Dlist) : Addr := l.addr
def Dlist.tail (l : Dlist) : Addr := l.addr + 24

/-- `sizeof(struct npr_dlist)`. -/
def sizeofDlist : Nat := 72

/-- `sizeof(struct npr_dlist_elem)`. -/
def sizeofElem : ChunkAlloc.Word := 24

/-- The links of an element are at its start. -/
abbrev links : Addr := 0

/-- `e->val`. -/
def val (m : ByteMem) (e : Addr) : Addr := m.load64 (e + 16)

/-- `e->val = v`. -/
def setVal (m : ByteMem) (e v : Addr) : ByteMem := m.store64 (e + 16) v

-- ============================================================== operations

section
variable (place : Blocks.Placement)

/-- `npr_dlist_init`. -/
def dlistInit (s : Sys) (addr : Addr) : Except Fault (Sys × Dlist) := do
  let (s, a) ← ChunkAlloc.chunkAllocatorInit place s sizeofElem 8
  let l : Dlist := ⟨addr, a⟩
  let m := DList.setNext links s.mem l.head l.tail
  let m := DList.setPrev links m l.tail l.head
  .ok ({ s with mem := m }, l)

/-- `e->next = &l->tail` and the stores that follow. -/
def linkBack (m : ByteMem) (tail e v : Addr) : ByteMem :=
  let m := DList.setNext links m e tail
  let m := DList.setPrev links m e (DList.prev links m tail)
  let m := DList.setPrev links m tail e
  let m := DList.setNext links m (DList.prev links m e) e
  setVal m e v

/-- `npr_dlist_push_back`. -/
def dlistPushBack (s : Sys) (l : Dlist) (v : Addr) :
    Except Fault (Sys × Dlist × Addr) := do
  let (s, a, e) ← ChunkAlloc.chunkAllocatorAlloc place s l.a
  let m := linkBack s.mem l.tail e v
  .ok ({ s with mem := m }, { l with a }, e)

end

/-- `npr_dlist_remove`. -/
def dlistRemove (s : Sys) (l : Dlist) (e : Addr) :
    Except Fault (Sys × Dlist) := do
  let m := DList.remove links s.mem e
  let (s, a) ← ChunkAlloc.chunkAllocatorFree { s with mem := m } l.a e
  .ok (s, { l with a })

-- =================================================================== walks

/-- The elements from `cur` on with their values, until `stop`. -/
def visits (m : ByteMem) (step : Addr → Addr) (stop : Addr) :
    Nat → Addr → Except Fault (List (Addr × Addr))
  | 0, _ => .error .noReturn
  | fuel + 1, cur =>
      if cur = stop then .ok []
      else do
        let rest ← visits m step stop fuel (step cur)
        .ok ((cur, val m cur) :: rest)

/-- `NPR_DLIST_FOR_EACH`. -/
def forEach (fuel : Nat) (m : ByteMem) (l : Dlist) :
    Except Fault (List (Addr × Addr)) :=
  visits m (DList.next links m) l.tail fuel (DList.next links m l.head)

/-- The same walk on `prev`, from the tail to the head. -/
def forEachBack (fuel : Nat) (m : ByteMem) (l : Dlist) :
    Except Fault (List (Addr × Addr)) :=
  visits m (DList.prev links m) l.head fuel (DList.prev links m l.tail)

-- ==================================================================== runs

/-- What a program does with a list. -/
inductive DlistCall
  | pushBack (v : Addr)
  | remove (e : Addr)
deriving DecidableEq, Repr

/-- A list in use, with the elements that were pushed and not removed
since, in the order they were pushed. -/
structure DlistState where
  sys : Sys
  list : Dlist
  live : List (Addr × Addr)

/-- The elements, without their values. -/
def DlistState.elems (s : DlistState) : List Addr := s.live.map Prod.fst

section
variable (place : Blocks.Placement)

/-- One call. -/
def DlistCall.exec (s : DlistState) : DlistCall → Except Fault DlistState
  | pushBack v => do
      let (sys, l, e) ← dlistPushBack place s.sys s.list v
      .ok ⟨sys, l, s.live ++ [(e, v)]⟩
  | remove e => do
      let (sys, l) ← dlistRemove s.sys s.list e
      .ok ⟨sys, l, s.live.eraseP fun x => x.1 = e⟩

/-- A list that has just been set up. -/
def dlistBoot (mem : ByteMem) (addr : Addr) : Except Fault DlistState := do
  let (sys, l) ← dlistInit place
    (ChunkAlloc.boot mem (addr.toNat, sizeofDlist)) addr
  .ok ⟨sys, l, []⟩

end

/-- What is removed is an element of the list. -/
def DlistCall.Valid (s : DlistState) : DlistCall → Prop
  | pushBack _ => True
  | remove e => e ∈ s.elems

instance (s : DlistState) : (c : DlistCall) → Decidable (c.Valid s)
  | .pushBack _ => inferInstanceAs (Decidable True)
  | .remove e => inferInstanceAs (Decidable (e ∈ s.elems))

end UdeBench.Npr.LinkedList
