/-
The generated benchmark functions: `gen` of main.cpp, and the part of
`lt` that makes a function of it.

The callback `F f` is a parameter: a function on the emitter that takes
a destination and a source register number. `rt` and `ot` are not read
by `gen` and are left out, as is what `lt` does with the function once
it has it (timing and printing).

`&zero_mem` is a parameter, the address the linker gives the array.
`num_loop` is the `int` it is in the source; `num_insn` only counts
iterations and is a natural number.
-/
import UdeBench.Ag.AllocCode

namespace UdeBench.Bench

open A32 (Word)
open Ag

/-- `enum lt_op`. -/
inductive LtOp
  | latency | throughput | throughputRename
deriving DecidableEq, Repr

/-- `ZEROMEM_PTR_REG`. -/
def zeromemPtrReg : Word := 11

/-- The size of `zero_mem`. -/
def zeroMemSize : Nat := 4096 * 8

/-- Where the linker can put `zero_mem`: all of it in the address space,
none of it in the first page, which is never mapped. -/
structure ZeroMem where
  addr : Word
  past_first_page : 4096 ≤ addr.toNat
  fits : addr.toNat + zeroMemSize ≤ 2 ^ 32

/-- The type `F` of the callback, applied to `e`, `dst` and `src`. -/
abbrev Callback := Emitter → Word → Word → Option Emitter

/-- The first part of `gen`: the registers saved, the loop counter and
the pointer to `zero_mem` loaded, the operand registers cleared. -/
def genInit (e : Emitter) (zeroMem numLoop : Word) : Option Emitter := do
  let e ← agEmitPush e .condAl 0b111111110000#32
  let e ← agEmitMovldrImm e .condAl 10 numLoop
  let e ← agEmitMovldrImm e .condAl zeromemPtrReg zeroMem
  let e ← (List.range 10).foldlM
    (fun e i => agEmitMovldrImm e .condAl (BitVec.ofNat 32 i) 0) e
  (List.range 16).foldlM
    (fun e i => agEmitVdup32 e .condAl 1 (BitVec.ofNat 32 (i * 2)) 0) e

/-- The `switch` of `gen`: the loop body. -/
def genBody (e : Emitter) (f : Callback) (numInsn : Nat) :
    LtOp → Option Emitter
  | .latency => (List.range numInsn).foldlM (fun e _ => f e 0 0) e
  | .throughput =>
      (List.range (numInsn / 8)).foldlM (fun e _ => do
        let e ← f e 0 1
        let e ← f e 0 2
        let e ← f e 0 3
        let e ← f e 0 4
        let e ← f e 0 5
        let e ← f e 0 6
        let e ← f e 0 7
        f e 0 8) e
  | .throughputRename =>
      (List.range (numInsn / 8)).foldlM (fun e _ => do
        let e ← f e 0 0
        let e ← f e 1 1
        let e ← f e 2 2
        let e ← f e 3 3
        let e ← f e 4 4
        let e ← f e 5 5
        let e ← f e 6 6
        f e 7 7) e

/-- The last part of `gen`: the counter, the branch back, the registers
restored. -/
def genTail (e : Emitter) (loopHead : Nat) : Option Emitter := do
  let (e, _) ← agEmitSubImm e .condAl 1 10 10 1
  let e ← agEmitB e .condNe loopHead
  let e ← agEmitPop e .condAl 0b111111110000#32
  agEmitBx e .condAl agLr

/-- `gen`. -/
def gen (e : Emitter) (f : Callback) (zeroMem numLoop : Word)
    (numInsn : Nat) (o : LtOp) : Option Emitter := do
  let e ← genInit e zeroMem numLoop
  let (e, loopHead) ← agEmitNewLabel e
  let e ← genBody e f numInsn o
  genTail e loopHead

/-- `lt`, up to the function it calls. -/
def ltCode (ps : PageSize) (f : Callback) (zeroMem numLoop : Word)
    (numInsn : Nat) (o : LtOp) : Option Code := do
  let e ← gen agEmitterInit f zeroMem numLoop numInsn o
  let (code, _) ← agAllocCode ps e
  some code

end UdeBench.Bench
