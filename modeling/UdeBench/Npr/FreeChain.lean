/-
The free chain of npr/free-chain.c: pointers to be freed together, and
destructors to be called after them.

The objects of the program share a heap. What a destructor does to it when
it is called is a parameter (`call`); that a destructor appends to the
chain that is calling it is left out. `append_malloc` enters the object as
the program fills it in.

The target is LP64: a pointer has 8 bytes, and the counts of the arrays
are wider than the `int`s that `npr_free_chain_free_all` counts up to. On
a 32-bit target no array is large enough to tell.
-/
import UdeBench.Npr.Arrays

namespace UdeBench.Npr.FreeChain

open Store (Ptr Heap Fault freePtr)
open Arrays (Elements varrayInit vaPush elems varrayDiscard turns)

/-- A `void *`. -/
abbrev Value := Option Ptr

/-- `struct dtor`: a function of type `φ`, and its argument. -/
structure Dtor (φ : Type) where
  f : φ
  data : Value
deriving DecidableEq, Repr

/-- `struct npr_varray`. -/
abbrev Varray := Arrays.Varray 64

/-- `struct npr_free_chain`. -/
structure Chain where
  frees : Varray
  dtors : Varray
deriving DecidableEq, Repr

/-- The memory of the two arrays, the objects, and the chain. -/
structure Sys (φ α : Type) where
  frees : Heap (Elements Value)
  dtors : Heap (Elements (Dtor φ))
  objs : Heap α
  chain : Chain

/-- Which allocations are answered. -/
structure Answers where
  frees : Nat → Bool
  dtors : Nat → Bool
  objs : Nat → Bool

section
variable {φ α : Type} (answers : Answers)

/-- `npr_free_chain_init`. -/
def freeChainInit (objs : Heap α) : Except Fault (Sys φ α) := do
  let (frees, fa) ← varrayInit answers.frees [] 16 8
  let (dtors, da) ← varrayInit answers.dtors [] 16 16
  .ok ⟨frees, dtors, objs, ⟨fa, da⟩⟩

/-- `npr_free_chain_append`. -/
def freeChainAppend (s : Sys φ α) (ptr : Value) : Except Fault (Sys φ α) := do
  let (frees, fa) ← vaPush answers.frees s.frees s.chain.frees ptr
  .ok { s with frees, chain := { s.chain with frees := fa } }

/-- `npr_free_chain_append_malloc`. -/
def freeChainAppendMalloc (s : Sys φ α) (a : α) :
    Except Fault (Sys φ α × Ptr) := do
  let (objs, ret) ← Store.malloc answers.objs s.objs a
  let s ← freeChainAppend answers { s with objs } (some ret)
  .ok (s, ret)

/-- `npr_free_chain_append_dtor`: the new element is filled in at once. -/
def freeChainAppendDtor (s : Sys φ α) (dtor : φ) (ptr : Value) :
    Except Fault (Sys φ α) := do
  let (dtors, da) ← vaPush answers.dtors s.dtors s.chain.dtors ⟨dtor, ptr⟩
  .ok { s with dtors, chain := { s.chain with dtors := da } }

end

section
variable {φ α : Type} (call : φ → Value → Heap α → Except Fault (Heap α))

/-- `d->f(d->data)`. -/
def Dtor.run (objs : Heap α) (d : Dtor φ) : Except Fault (Heap α) :=
  call d.f d.data objs

/-- `npr_free_chain_free_all`: the counts become an `int`. -/
def freeChainFreeAll (s : Sys φ α) : Except Fault (Sys φ α) := do
  let ptrs ← elems s.frees s.chain.frees
  let objs ← (ptrs.take (turns s.chain.frees.nelem)).foldlM freePtr s.objs
  let frees ← varrayDiscard s.frees s.chain.frees
  let ds ← elems s.dtors s.chain.dtors
  let objs ← (ds.take (turns s.chain.dtors.nelem)).foldlM (Dtor.run call)
    objs
  let dtors ← varrayDiscard s.dtors s.chain.dtors
  .ok { s with frees, dtors, objs }

/-- `npr_free_chain_close`. -/
def freeChainClose (s : Sys φ α) : Except Fault (Sys φ α) := do
  let frees ← varrayDiscard s.frees s.chain.frees
  let dtors ← varrayDiscard s.dtors s.chain.dtors
  .ok { s with frees, dtors }

end

-- ==================================================================== calls

/-- What a program does: an object of its own, or a call on the chain. -/
inductive FcCall (φ α : Type)
  | malloc (a : α)
  | append (ptr : Value)
  | appendMalloc (a : α)
  | appendDtor (dtor : φ) (ptr : Value)

/-- A chain in use, with what has been appended to it. -/
structure FcState (φ α : Type) where
  sys : Sys φ α
  ptrs : List Value
  dtors : List (Dtor φ)

section
variable {φ α : Type} (answers : Answers)

/-- One call. -/
def FcCall.exec (s : FcState φ α) :
    FcCall φ α → Except Fault (FcState φ α)
  | malloc a => do
      let (objs, _) ← Store.malloc answers.objs s.sys.objs a
      .ok { s with sys := { s.sys with objs } }
  | append ptr => do
      let sys ← freeChainAppend answers s.sys ptr
      .ok { s with sys, ptrs := s.ptrs ++ [ptr] }
  | appendMalloc a => do
      let (sys, ret) ← freeChainAppendMalloc answers s.sys a
      .ok { s with sys, ptrs := s.ptrs ++ [some ret] }
  | appendDtor dtor ptr => do
      let sys ← freeChainAppendDtor answers s.sys dtor ptr
      .ok { s with sys, dtors := s.dtors ++ [⟨dtor, ptr⟩] }

/-- A run of calls on a new chain. -/
def fcRun (objs : Heap α) (cs : List (FcCall φ α)) :
    Except Fault (FcState φ α) := do
  let sys ← freeChainInit answers objs
  cs.foldlM (FcCall.exec answers) ⟨sys, [], []⟩

end

end UdeBench.Npr.FreeChain
