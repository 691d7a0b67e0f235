/-
The stacks of coroutines: npr/coro.c, for x86-64 and a POSIX system.

# What is modelled

`npr_coro_init` maps a guard page and the stack above it, and writes what
`npr_coro_start_x8664` finds there; `npr_coro_fini` unmaps them. The sizes
are `int`s, which must not overflow. `flags` is not read. The switches
between coroutines are assembly that is not part of the sources; here a
program sets coroutines up and takes them down.
-/
import UdeBench.Lib.PageTable

namespace UdeBench.Npr.Coroutines

open Spans ByteMem
open PageTable (Kernel Vm mmap mprotect munmap store)

/-- What can go wrong. `notMade`: the end of what is no coroutine. -/
inductive CoroFault
  | intOverflow | segv | notMade
deriving DecidableEq, Repr

/-- `struct npr_coro`, as far as `npr_coro_init` sets it. -/
structure Coro where
  sp : Addr
  entry : Addr
  stackTop : Addr
  stackAllocSize : Int
deriving DecidableEq, Repr

/-- The value of an expression that is an `int`. -/
def int (x : Int) : Except CoroFault Int :=
  if -2 ^ 31 ≤ x ∧ x < 2 ^ 31 then .ok x else .error .intOverflow

/-- `NPR_CEIL_DIV`: the quotient is rounded towards zero. -/
def ceilDiv (num denom : Int) : Except CoroFault Int := do
  let sum ← int (num + (denom - 1))
  .ok (sum.tdiv denom)

/-- `*p = x`. -/
def put (kern : Kernel) (v : Vm) (p x : Addr) : Except CoroFault Vm :=
  match store kern v p x with
  | some v => .ok v
  | none => .error .segv

section
variable (kern : Kernel) (start : Addr)

/-- The words above `sp`, and the structure. -/
def stackInit (v : Vm) (self entry arg page : Addr) (size : Int) :
    Except CoroFault (Vm × Coro) := do
  let stackBottom := page + BitVec.ofInt 64 size
  let sp := stackBottom - 24
  let v ← put kern v sp start
  let v ← put kern v (sp + 8) self
  let v ← put kern v (sp + 16) arg
  .ok (v, { sp, entry, stackTop := page, stackAllocSize := size })

/-- The rest of `npr_coro_init`, from the call of `mmap` on. -/
def mapStack (v : Vm) (self entry arg : Addr) (numPage size : Int) :
    Except CoroFault (Vm × Option Coro) := do
  let pageSize : Int := kern.pageSize
  match mmap kern v (BitVec.ofInt 64 size) with
  | (v, none) => .ok (v, none)
  | (v, some page) => do
      let rest ← int ((numPage - 1) * pageSize)
      match mprotect kern v (page + BitVec.ofInt 64 pageSize)
          (BitVec.ofInt 64 rest) .readWrite with
      | (v, false) => .ok (munmap kern v page (BitVec.ofInt 64 size), none)
      | (v, true) => do
          let (v, c) ← stackInit kern start v self entry arg page size
          .ok (v, some c)

/-- `npr_coro_init`: the structure it sets, or none where it returns -1. -/
def coroInit (v : Vm) (self entry arg : Addr) (stackSize : Int) :
    Except CoroFault (Vm × Option Coro) := do
  let pageSize : Int := kern.pageSize
  let numPage ← ceilDiv stackSize pageSize
  let numPage ← int (numPage + 1)
  let size ← int (numPage * pageSize)
  mapStack kern start v self entry arg numPage size

/-- `npr_coro_fini`. -/
def coroFini (v : Vm) (c : Coro) : Vm :=
  munmap kern v c.stackTop (BitVec.ofInt 64 c.stackAllocSize)

end

-- ==================================================================== runs

/-- What a program does with the coroutine in its `k`-th structure. -/
inductive CoroCall
  | init (k : Nat) (entry arg : Addr) (stackSize : Int)
  | fini (k : Nat)
deriving DecidableEq, Repr

/-- A coroutine, and what it was made for. -/
structure Made where
  coro : Coro
  arg : Addr
  stackSize : Int

/-- A program's pages, and its coroutines. -/
structure State where
  vm : Vm
  coros : Nat → Option Made

section
variable (kern : Kernel) (start : Addr) (self : Nat → Addr)

/-- One call, where `self k` is the address of the `k`-th structure. -/
def CoroCall.exec (s : State) : CoroCall → Except CoroFault State
  | init k entry arg stackSize => do
      let (vm, c) ← coroInit kern start s.vm (self k) entry arg stackSize
      match c with
      | none => .ok { s with vm }
      | some c =>
          .ok ⟨vm, Function.update s.coros k (some ⟨c, arg, stackSize⟩)⟩
  | fini k =>
      match s.coros k with
      | none => .error .notMade
      | some m => .ok ⟨coroFini kern s.vm m.coro,
          Function.update s.coros k none⟩

/-- A run of calls of a program without coroutines. -/
def coroRun (vm : Vm) (cs : List CoroCall) : Except CoroFault State :=
  cs.foldlM (CoroCall.exec kern start self) ⟨vm, fun _ => none⟩

end

end UdeBench.Npr.Coroutines
