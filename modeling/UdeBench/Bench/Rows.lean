/-
What `main` measures: its rows, the modes `run`, `run_latency` and
`run_throughput` measure a row in, and the sizes it goes through.

A row is the expression of a `GEN` macro, as a callback on the emitter,
and the words it emits, which the field `emits` checks. The register and
operand types of a row are only printed and are left out.
-/
import UdeBench.Ag.Encoders
import UdeBench.Ag.Vr3
import UdeBench.Bench.Proofs.Image

namespace UdeBench.Bench

open A32 (Word)
open Ag

-- ================================================================== modes

/-- `run`, `run_latency` and `run_throughput`. -/
inductive Runner
  | run | runLatency | runThroughput
deriving DecidableEq, Repr

/-- The calls of `lt` they make: what is printed, and the mode. Both calls
of `run_throughput` rename. -/
def Runner.calls : Runner → List (String × LtOp)
  | run => [("latency", .latency), ("throughput", .throughput),
      ("rename", .throughputRename)]
  | runLatency => [("latency", .latency)]
  | runThroughput => [("throughput", .throughputRename),
      ("rename", .throughputRename)]

-- =================================================================== rows

/-- A row: `k` instructions at each call, all of them straight-line
words. -/
structure Row where
  name : String
  runner : Runner
  k : Nat
  emit : Callback
  words : Word → Word → List Word
  hlen : ∀ dst src, (words dst src).length = k
  emits : ∀ e dst src, emit e dst src = (words dst src).foldlM agEmit4 e

/-- The callback of a row. -/
def Row.code (r : Row) : StraightLine r.k where
  words _ dst src := r.words dst src
  hlen _ dst src := r.hlen dst src

/-- An expression of one encoder. -/
def one (name : String) (runner : Runner) (emit : Callback)
    (w : Word → Word → Word)
    (emits : ∀ e dst src, emit e dst src = agEmit4 e (w dst src)) : Row where
  name := name
  runner := runner
  k := 1
  emit := emit
  words dst src := [w dst src]
  hlen _ _ := rfl
  emits e dst src := by
    rw [emits]
    exact (bind_pure _).symm

/-- An expression of two. -/
def two (name : String) (runner : Runner) (emit : Callback)
    (w w' : Word → Word → Word)
    (emits : ∀ e dst src, emit e dst src = do
      let e ← agEmit4 e (w dst src)
      agEmit4 e (w' dst src)) : Row where
  name := name
  runner := runner
  k := 2
  emit := emit
  words dst src := [w dst src, w' dst src]
  hlen _ _ := rfl
  emits e dst src := by
    rw [emits]
    show _ = (agEmit4 e (w dst src) >>= fun e =>
      agEmit4 e (w' dst src) >>= pure)
    simp only [bind_pure]

/-- `ag_emit_vadd_f32`, `ag_emit_vmul_f32` and `ag_emit_vmla_f32`: the
emitter of the tables with that name. -/
def agEmitF32 (name : Vr3Name) (e : Emitter) (q vd vn vm : Word) :
    Option Emitter :=
  (vr3Emitters.find? fun f => f.name = name ∧ f.type = .f
    ∧ f.width = 32).bind fun f => f.emit e q vd vn vm

def agEmitVaddF32 := agEmitF32 .vadd
def agEmitVmulF32 := agEmitF32 .vmul
def agEmitVmlaF32 := agEmitF32 .vmla

/-- `ag_emit_vld1_32` to `ag_emit_vst4_32`, likewise. -/
def agEmitVldst32 (name : VldstName) (nelem : Nat) (e : Emitter)
    (vd rn rm align : Word) : Option Emitter :=
  (vldstEmitters.find? fun f => f.name = name ∧ f.nelem = nelem
    ∧ f.type = 32).bind fun f => f.emit e vd rn rm align

def agEmitVld1_32 := agEmitVldst32 .vld 1
def agEmitVld2_32 := agEmitVldst32 .vld 2
def agEmitVld4_32 := agEmitVldst32 .vld 4
def agEmitVst1_32 := agEmitVldst32 .vst 1
def agEmitVst2_32 := agEmitVldst32 .vst 2
def agEmitVst4_32 := agEmitVldst32 .vst 4

/-- The rows of ADD. -/
def addRows : List Row :=
  [one "add rd, rm, rn" .run
      (fun e dst src => agEmitAddReg e .condAl 0 dst src src 0)
      (fun dst src => dataProcessRegWord .condAl .add 0 dst src src 0)
      fun _ _ _ => rfl,
    one "adds rd, rm, rn" .run
      (fun e dst src => agEmitAddReg e .condAl 1 dst src src 0)
      (fun dst src => dataProcessRegWord .condAl .add 1 dst src src 0)
      fun _ _ _ => rfl,
    one "add rd, rm, rn, lsl #4" .run
      (fun e dst src => agEmitAddReg e .condAl 1 dst src src (agLslAm 4))
      (fun dst src => dataProcessRegWord .condAl .add 1 dst src src (agLslAm 4))
      fun _ _ _ => rfl,
    one "add rd, rm, imm" .run
      (fun e dst src => (agEmitAddImm e .condAl 0 dst src 100).map Prod.fst)
      (fun dst src => dataProcessImmWord .condAl .add 0 dst src 100)
      fun e dst src => (dataProcessImm_fst e .condAl .add 0 dst src 100).trans
        (if_neg (by decide)),
    one "add rd, rm, pc" .run
      (fun e dst src => agEmitAddReg e .condAl 0 dst src agPc (agLslAm 4))
      (fun dst src =>
        dataProcessRegWord .condAl .add 0 dst src agPc (agLslAm 4))
      fun _ _ _ => rfl]

/-- The row of `add pc, pc, 0`. -/
def addPcRow : Row :=
  one "add pc, pc, 0" .runLatency
    (fun e _ _ => (agEmitAddImm e .condAl 0 agPc agPc 0).map Prod.fst)
    (fun _ _ => dataProcessImmWord .condAl .add 0 agPc agPc 0)
    fun e _ _ => (dataProcessImm_fst e .condAl .add 0 agPc agPc 0).trans
      (if_neg (by decide))

/-- The rows of the other integer arithmetic. The row named eor emits an
ORR. -/
def arithRows : List Row :=
  [one "orr rd, rm, rn" .run
      (fun e dst src => agEmitOrrReg e .condAl 0 dst src src 0)
      (fun dst src => dataProcessRegWord .condAl .orr 0 dst src src 0)
      fun _ _ _ => rfl,
    one "eor rd, rm, rn" .run
      (fun e dst src => agEmitOrrReg e .condAl 0 dst src src 0)
      (fun dst src => dataProcessRegWord .condAl .orr 0 dst src src 0)
      fun _ _ _ => rfl,
    one "mul rd, rm, rs" .run
      (fun e dst src => agEmitMul e .condAl 0 dst src src)
      (fun dst src => mulWord .condAl 0 dst src src)
      fun _ _ _ => rfl,
    one "mla rd, rm, rs, rn" .run
      (fun e dst src => agEmitMla e .condAl 0 dst src src src)
      (fun dst src => mlaWord .condAl 0 dst src src src)
      fun _ _ _ => rfl]

/-- The rows of the loads and stores. -/
def memoryRows : List Row :=
  [one "ldr rt, [rn, rm]" .run
      (fun e dst src => agEmitLdrReg e .condAl dst zeromemPtrReg src 0 1
        agOffsetAddr)
      (fun dst src => ldrstrRegWord agLdrReg .condAl dst zeromemPtrReg src 0 1
        agOffsetAddr)
      fun _ _ _ => rfl,
    one "ldr rt, [rn, rm, lsl #4]" .run
      (fun e dst src =>
        agEmitLdrReg e .condAl dst zeromemPtrReg src (agLslAm 4) 1
        agOffsetAddr)
      (fun dst src => ldrstrRegWord agLdrReg .condAl dst zeromemPtrReg src
        (agLslAm 4) 1 agOffsetAddr)
      fun _ _ _ => rfl,
    one "ldm rt, {r0}" .runThroughput
      (fun e _ _ => agEmitLdmia e .condAl 0 zeromemPtrReg 0b1)
      (fun _ _ => ldstmWord .condAl 0 1 0 0 1 zeromemPtrReg 0b1)
      fun _ _ _ => rfl,
    one "ldm rt, {r0-r3}" .runThroughput
      (fun e _ _ => agEmitLdmia e .condAl 0 zeromemPtrReg 0b1111)
      (fun _ _ => ldstmWord .condAl 0 1 0 0 1 zeromemPtrReg 0b1111)
      fun _ _ _ => rfl,
    one "ldm rt, {r0-r7}" .runThroughput
      (fun e _ _ => agEmitLdmia e .condAl 0 zeromemPtrReg 0b11111111)
      (fun _ _ => ldstmWord .condAl 0 1 0 0 1 zeromemPtrReg 0b11111111)
      fun _ _ _ => rfl,
    one "ldrex rd, [rn]" .runThroughput
      (fun e _ _ => agEmitLdrex e .condAl 0 zeromemPtrReg)
      (fun _ _ => ldrexWord .condAl 0 zeromemPtrReg)
      fun _ _ _ => rfl,
    one "strex rd, rm, [rn]" .runThroughput
      (fun e _ _ => agEmitStrex e .condAl 0 1 zeromemPtrReg)
      (fun _ _ => strexWord .condAl 0 1 zeromemPtrReg)
      fun _ _ _ => rfl,
    two "ldrex r0, [rn]; strex rd, r0, [rn] " .runThroughput
      (fun e _ _ => do
        let e ← agEmitLdrex e .condAl 0 zeromemPtrReg
        agEmitStrex e .condAl 1 0 zeromemPtrReg)
      (fun _ _ => ldrexWord .condAl 0 zeromemPtrReg)
      (fun _ _ => strexWord .condAl 1 0 zeromemPtrReg)
      fun _ _ _ => rfl,
    one "str rt, [rn, #0]" .runThroughput
      (fun e dst _ => agEmitStrImm e .condAl dst zeromemPtrReg 0 0)
      (fun dst _ => ldrstrImmWord agStrImm .condAl dst zeromemPtrReg 0 0)
      fun _ _ _ => rfl,
    two "{str->ldr}->..." .runLatency
      (fun e dst _ => do
        let e ← agEmitStrImm e .condAl dst zeromemPtrReg 0 0
        agEmitLdrReg e .condAl dst zeromemPtrReg dst 0 1 agOffsetAddr)
      (fun dst _ => ldrstrImmWord agStrImm .condAl dst zeromemPtrReg 0 0)
      (fun dst _ =>
        ldrstrRegWord agLdrReg .condAl dst zeromemPtrReg dst 0 1
          agOffsetAddr)
      fun _ _ _ => rfl,
    two "{strb->ldr}->..." .runLatency
      (fun e dst _ => do
        let e ← agEmitStrbImm e .condAl dst zeromemPtrReg 1 0
        agEmitLdrReg e .condAl dst zeromemPtrReg dst 0 1 agOffsetAddr)
      (fun dst _ => ldrstrImmWord agStrbImm .condAl dst zeromemPtrReg 1 0)
      (fun dst _ =>
        ldrstrRegWord agLdrReg .condAl dst zeromemPtrReg dst 0 1
          agOffsetAddr)
      fun _ _ _ => rfl]

/-- The rows of NEON. -/
def neonRows : List Row :=
  [one "vadd.f32 d, d, d" .run
      (fun e dst src => agEmitVaddF32 e 0 dst src src)
      (fun dst src => vr3Word agNeonVr3Addf 0 0 dst src src)
      fun _ _ _ => rfl,
    one "vadd.f32 q, q, q" .run
      (fun e dst src => agEmitVaddF32 e 1 dst src src)
      (fun dst src => vr3Word agNeonVr3Addf 1 0 dst src src)
      fun _ _ _ => rfl,
    one "vmul.f32 d, d, d" .run
      (fun e dst src => agEmitVmulF32 e 0 dst src src)
      (fun dst src => vr3Word agNeonVr3Vmulf 0 0 dst src src)
      fun _ _ _ => rfl,
    one "vmul.f32 q, q, q" .run
      (fun e dst src => agEmitVmulF32 e 1 dst src src)
      (fun dst src => vr3Word agNeonVr3Vmulf 1 0 dst src src)
      fun _ _ _ => rfl,
    one "vmul.f32 d, d, d" .run
      (fun e dst src => agEmitVmulF32 e 0 dst src src)
      (fun dst src => vr3Word agNeonVr3Vmulf 0 0 dst src src)
      fun _ _ _ => rfl,
    one "vmul.f32 q, q, q" .run
      (fun e dst src => agEmitVmulF32 e 1 dst src src)
      (fun dst src => vr3Word agNeonVr3Vmulf 1 0 dst src src)
      fun _ _ _ => rfl,
    one "vmla.f32 d, d, d" .run
      (fun e dst src => agEmitVmlaF32 e 0 dst src src)
      (fun dst src => vr3Word agNeonVr3Addf 0 0 dst src src)
      fun _ _ _ => rfl,
    one "vmla.f32 q, q, q" .run
      (fun e dst src => agEmitVmlaF32 e 1 dst src src)
      (fun dst src => vr3Word agNeonVr3Addf 1 0 dst src src)
      fun _ _ _ => rfl,
    one "vld1.32 d, [rn]" .runThroughput
      (fun e dst _ => agEmitVld1_32 e dst zeromemPtrReg 15 0)
      (fun dst _ => vldst1Word dst zeromemPtrReg 15 0 agVld1_1 2)
      fun _ _ _ => rfl,
    one "vld2.32 d, [rn]" .runThroughput
      (fun e dst _ => agEmitVld2_32 e dst zeromemPtrReg 15 0)
      (fun dst _ => vldst1Word dst zeromemPtrReg 15 0 agVld2_1 2)
      fun _ _ _ => rfl,
    one "vld4.32 q, [rn]" .runThroughput
      (fun e dst _ => agEmitVld4_32 e dst zeromemPtrReg 15 0)
      (fun dst _ => vldst1Word dst zeromemPtrReg 15 0 agVld4_1 2)
      fun _ _ _ => rfl,
    one "vst1.32 d, [rn]" .runThroughput
      (fun e dst _ => agEmitVst1_32 e dst zeromemPtrReg 15 0)
      (fun dst _ => vldst1Word dst zeromemPtrReg 15 0 agVst1_1 2)
      fun _ _ _ => rfl,
    one "vst2.32 d, [rn]" .runThroughput
      (fun e dst _ => agEmitVst2_32 e dst zeromemPtrReg 15 0)
      (fun dst _ => vldst1Word dst zeromemPtrReg 15 0 agVst2_1 2)
      fun _ _ _ => rfl,
    one "vst4.32 q, [rn]" .runThroughput
      (fun e dst _ => agEmitVst4_32 e dst zeromemPtrReg 15 0)
      (fun dst _ => vldst1Word dst zeromemPtrReg 15 0 agVst4_1 2)
      fun _ _ _ => rfl,
    one "vcvt.f32.s32 d, d" .runThroughput
      (fun e dst src => agEmitVcvtF32S32 e 0 dst src)
      (fun dst src => vcvtWord 0xf3bb0600 0 dst src)
      fun _ _ _ => rfl,
    one "vcvt.f32.s32 q, q" .runThroughput
      (fun e dst src => agEmitVcvtF32S32 e 1 (dst * 2) (src * 2))
      (fun dst src => vcvtWord 0xf3bb0600 1 (dst * 2) (src * 2))
      fun _ _ _ => rfl,
    one "vcvt.s32.f32 d, d" .runThroughput
      (fun e dst src => agEmitVcvtS32F32 e 0 dst src)
      (fun dst src => vcvtWord 0xf3bb0700 0 dst src)
      fun _ _ _ => rfl,
    one "vcvt.s32.f32 q, q" .runThroughput
      (fun e dst src => agEmitVcvtS32F32 e 1 (dst * 2) (src * 2))
      (fun dst src => vcvtWord 0xf3bb0700 1 (dst * 2) (src * 2))
      fun _ _ _ => rfl]

/-- The rows that run straight through. -/
def straightRows : List Row :=
  addRows ++ arithRows ++ memoryRows ++ neonRows

/-- All rows, in `main`'s order. -/
def rows : List Row :=
  addRows ++ [addPcRow] ++ arithRows ++ memoryRows ++ neonRows

-- =================================================================== main

/-- `NUM_LOOP`. -/
def mainNumLoop : Word := 16384 * 8

/-- The values `num_insn` takes from `n` on, in the `while` of `main`. -/
def sizesFrom (n : Nat) : List Nat :=
  if 0 < n ∧ n ≤ 256 then n :: sizesFrom (n * 2) else []
termination_by 257 - n

/-- The values `num_insn` takes. -/
def sizes : List Nat := sizesFrom 16

/-- A call of `lt`: the row, what is printed, the mode and the size. -/
structure Measurement where
  row : Row
  on : String
  o : LtOp
  numInsn : Nat

/-- The calls of `lt` for some rows, in order. -/
def measurementsOf (rs : List Row) : List Measurement :=
  sizes.flatMap fun n => rs.flatMap fun r =>
    r.runner.calls.map fun (on, o) => ⟨r, on, o, n⟩

/-- The calls of `lt` that `main` makes. -/
def measurements : List Measurement := measurementsOf rows

end UdeBench.Bench
