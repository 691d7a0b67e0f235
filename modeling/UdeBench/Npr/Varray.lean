/-
The growable array of npr/varray.c, with the macros of npr/varray.h, on
an LP64 target, where an `int` and a `size_t` differ in width. (A 32-bit
program such as `instbench` has no room for the sizes at which they part.)

# Representation

The type `t` of the macros is the one the array was made for:
`sizeof(t)` is `elem_size`, and the element at index `i` lies
`i * elem_size` bytes behind `elements`. A `size_t` has 64 bits; an `int`
has 32, wraps around, and is extended by its sign where a `size_t` is
expected.

The pool of an array is a second allocator here, whose sizes are
`unsigned int`s: what npr/mempool-c.c is to it, memory of its own for
every request, is what an object is.
-/
import UdeBench.Lib.Objects

namespace UdeBench.Npr.VArray

open Objects (Ptr Cell Byte Answers Fault)

/-- A `size_t`. -/
abbrev Size := BitVec 64

/-- An `int`. -/
abbrev Word := BitVec 32

/-- `struct npr_varray`. -/
structure Varray where
  nelem : Size
  size : Size
  elemSize : Size
  elements : Ptr
deriving DecidableEq, Repr

/-- The memory, and the array. -/
structure Sys where
  mem : Objects.Mem
  arr : Varray

section
variable (answers : Answers)

/-- `npr_mempool_alloc`. -/
def mempoolAlloc (m : Objects.Mem) (s : Size) :
    Except Fault (Objects.Mem × Ptr) :=
  Objects.malloc answers m (s.setWidth 32).toNat

/-- `npr_varray_init`. -/
def varrayInit (m : Objects.Mem) (n elemSize : Size) : Except Fault Sys := do
  let sz := elemSize * n
  let (m, elements) ← Objects.malloc answers m sz.toNat
  .ok ⟨m, ⟨0, n, elemSize, elements⟩⟩

/-- `npr_varray_init_pool`. -/
def varrayInitPool (m : Objects.Mem) (n elemSize : Size) :
    Except Fault Sys := do
  let sz := elemSize * n
  let (m, elements) ← mempoolAlloc answers m sz
  .ok ⟨m, ⟨0, n, elemSize, elements⟩⟩

-- =============================================================== growing

/-- The `realloc` of an array to `size` elements. -/
def reallocElements (s : Sys) (arr : Varray) : Except Fault Sys := do
  let (m, elements) ← Objects.realloc answers s.mem (some arr.elements)
    (arr.size * arr.elemSize).toNat
  .ok ⟨m, { arr with elements }⟩

/-- The new elements from the pool, and the old ones copied. -/
def moveElements (s : Sys) (arr : Varray) : Except Fault Sys := do
  let old := s.arr.elements
  let sz := s.arr.size * s.arr.elemSize
  let (m, elements) ← mempoolAlloc answers s.mem (arr.size * arr.elemSize)
  let m ← Objects.memcpy m (some elements) 0 (some old) 0 sz.toNat
  .ok ⟨m, { arr with elements }⟩

/-- `npr_varray_realloc`. -/
def varrayRealloc (s : Sys) : Except Fault Sys :=
  reallocElements answers s { s.arr with size := s.arr.size * 2 }

/-- `npr_varray_realloc_pool`. -/
def varrayReallocPool (s : Sys) : Except Fault Sys :=
  moveElements answers s { s.arr with size := s.arr.size * 2 }

/-- `npr_varray_resize`. -/
def varrayResize (s : Sys) (n : Word) : Except Fault Sys :=
  let arr := { s.arr with nelem := n.signExtend 64 }
  if n.signExtend 64 ≤ arr.size then .ok { s with arr }
  else
    reallocElements answers s { arr with size := (n * 2).signExtend 64 }

/-- `npr_varray_resize_pool`. -/
def varrayResizePool (s : Sys) (n : Word) : Except Fault Sys :=
  let arr := { s.arr with nelem := n.signExtend 64 }
  if n.signExtend 64 ≤ arr.size then .ok { s with arr }
  else
    moveElements answers s { arr with size := (n * 2).signExtend 64 }

end

-- ================================================================ macros

/-- The offset of an element. -/
def Varray.offset (a : Varray) (n : Size) : Int :=
  (n.toNat * a.elemSize.toNat : Nat)

/-- `VA_ELEM(t,a,n)`, read. -/
def vaElem (s : Sys) (n : Size) : Except Fault (List Cell) :=
  Objects.read s.mem (some s.arr.elements) (s.arr.offset n)
    s.arr.elemSize.toNat

/-- `VA_ELEM(t,a,n) = e`. -/
def vaElemSet (s : Sys) (n : Size) (e : List Byte) : Except Fault Sys := do
  let m ← Objects.write s.mem (some s.arr.elements) (s.arr.offset n)
    (e.map some)
  .ok { s with mem := m }

section
variable (answers : Answers)

/-- `VA_PUSH(t,a,e)`. -/
def vaPush (s : Sys) (e : List Byte) : Except Fault Sys := do
  let s ← if s.arr.size ≤ s.arr.nelem then varrayRealloc answers s else .ok s
  let n := s.arr.nelem
  vaElemSet { s with arr := { s.arr with nelem := n + 1 } } n e

/-- `VA_PUSH_P(t,a,e,p)`. -/
def vaPushP (s : Sys) (e : List Byte) : Except Fault Sys := do
  let s ← if s.arr.size ≤ s.arr.nelem then varrayReallocPool answers s
    else .ok s
  let n := s.arr.nelem
  vaElemSet { s with arr := { s.arr with nelem := n + 1 } } n e

/-- `VA_NEWELEM(a)`. -/
def vaNewelem (s : Sys) : Except Fault Sys := do
  let s ← if s.arr.size ≤ s.arr.nelem then varrayRealloc answers s else .ok s
  .ok { s with arr := { s.arr with nelem := s.arr.nelem + 1 } }

/-- `VA_NEWELEM_P(a,p)`. -/
def vaNewelemP (s : Sys) : Except Fault Sys := do
  let s ← if s.arr.size ≤ s.arr.nelem then varrayReallocPool answers s
    else .ok s
  .ok { s with arr := { s.arr with nelem := s.arr.nelem + 1 } }

end

/-- `VA_LAST_PTR(t,a)`, written through. -/
def vaLastSet (s : Sys) (e : List Byte) : Except Fault Sys :=
  vaElemSet s (s.arr.nelem - 1) e

/-- `VA_POP(t,a)`. -/
def vaPop (s : Sys) : Except Fault (Sys × List Cell) := do
  let s := { s with arr := { s.arr with nelem := s.arr.nelem - 1 } }
  let e ← vaElem s s.arr.nelem
  .ok (s, e)

-- ================================================================ copies

section
variable (answers : Answers)

/-- `npr_varray_copy`. -/
def varrayCopy (s : Sys) : Except Fault (Sys × Ptr) := do
  let sz := s.arr.nelem * s.arr.elemSize
  let (m, ret) ← mempoolAlloc answers s.mem sz
  let m ← Objects.memcpy m (some ret) 0 (some s.arr.elements) 0 sz.toNat
  .ok ({ s with mem := m }, ret)

/-- `npr_varray_malloc_copy`. -/
def varrayMallocCopy (s : Sys) : Except Fault (Sys × Ptr) := do
  let sz := s.arr.nelem * s.arr.elemSize
  let (m, ret) ← Objects.malloc answers s.mem sz.toNat
  let m ← Objects.memcpy m (some ret) 0 (some s.arr.elements) 0 sz.toNat
  .ok ({ s with mem := m }, ret)

/-- `npr_varray_close`. -/
def varrayClose (s : Sys) : Except Fault (Objects.Mem × Ptr) := do
  let (s, ret) ← varrayCopy answers s
  let m ← Objects.free s.mem s.arr.elements
  .ok (m, ret)

/-- `npr_varray_malloc_close`. -/
def varrayMallocClose (s : Sys) : Except Fault (Objects.Mem × Ptr) := do
  let (s, ret) ← varrayMallocCopy answers s
  let m ← Objects.free s.mem s.arr.elements
  .ok (m, ret)

end

-- ================================================================== runs

/-- What the elements of an array are allocated with. -/
inductive Backing
  | malloc | pool
deriving DecidableEq, Repr

/-- What a program does with an array. -/
inductive VaCall
  | push (e : List Byte)
  | newelem (e : List Byte)
  | pop
  | resize (n : Word)
deriving DecidableEq, Repr

/-- The array, and what has been popped. -/
structure VaState where
  sys : Sys
  popped : List (List Cell)

section
variable (answers : Answers)

/-- One call. A new element is written to before anything else
happens. -/
def VaCall.exec (b : Backing) (s : VaState) : VaCall → Except Fault VaState
  | push e => do
      let sys ← match b with
        | .malloc => vaPush answers s.sys e
        | .pool => vaPushP answers s.sys e
      .ok { s with sys }
  | newelem e => do
      let sys ← match b with
        | .malloc => vaNewelem answers s.sys
        | .pool => vaNewelemP answers s.sys
      let sys ← vaLastSet sys e
      .ok { s with sys }
  | pop => do
      let (sys, e) ← vaPop s.sys
      .ok ⟨sys, s.popped ++ [e]⟩
  | resize n => do
      let sys ← match b with
        | .malloc => varrayResize answers s.sys n
        | .pool => varrayResizePool answers s.sys n
      .ok { s with sys }

/-- A new array with room for `n` elements. -/
def vaInit (b : Backing) (n elemSize : Size) : Except Fault VaState := do
  let sys ← match b with
    | .malloc => varrayInit answers [] n elemSize
    | .pool => varrayInitPool answers [] n elemSize
  .ok ⟨sys, []⟩

/-- A run of calls on a new array. -/
def vaRun (b : Backing) (n elemSize : Size) (cs : List VaCall) :
    Except Fault VaState := do
  let s ← vaInit answers b n elemSize
  cs.foldlM (VaCall.exec answers b) s

end

end UdeBench.Npr.VArray
