/-
The NEON three-register emitters. The source generates them from tables
of names and opcode constants (`AG_FOR_EACH_VR3_*` in ag/ag_insns.h) by
macros that expand a table row into one emitter for each element type
(`IMPL_NEON_VR3_*` in ag/ag_gen.c). Here a table is a list of its rows
and a macro a function from a row to the emitters it defines.

An emitter is what its name says (`ag_emit_vadd_i32` is `vadd`, `i`, 32)
and the opcode and size it passes to `ag_emit_vr3`.
-/
import UdeBench.Ag.Emitter

namespace UdeBench.Ag

open A32 (Word)

-- ============================================================== constants

def agNeonVr3Addi : Word := 0x02000800
def agNeonVr3Addf : Word := 0x02000d00

def agNeonVr3Vpmaxs : Word := 0x02000a00
def agNeonVr3Vpmaxu : Word := 0x03000a00
def agNeonVr3Vpmaxf : Word := 0x03000f00

def agNeonVr3Vpmins : Word := 0x02000a10
def agNeonVr3Vpminu : Word := 0x03000a10
def agNeonVr3Vpminf : Word := 0x03200f00

def agNeonVr3Vmuli : Word := 0x02000910
def agNeonVr3Vmulp : Word := 0x03000910
def agNeonVr3Vmulf : Word := 0x03000d10

def agNeonVr3Vmullu : Word := 0x03800c00
def agNeonVr3Vmulls : Word := 0x02800c00
def agNeonVr3Vmulli : Word := 0x03800e00
def agNeonVr3Vmullp : Word := 0x02800e00

-- ================================================================= tables

/-- The operations of the tables. -/
inductive Vr3Name
  | vadd | vmla | vpmax | vpmin | vmul | vmull
deriving DecidableEq, Repr

/-- The letter of an element type. -/
inductive Vr3Prefix
  | i | u | s | p | f
deriving DecidableEq, Repr

/-- `AG_FOR_EACH_VR3_IF`. -/
def agForEachVr3If : List (Vr3Name × Word × Word) :=
  [(.vadd, agNeonVr3Addi, agNeonVr3Addf),
    (.vmla, agNeonVr3Addi, agNeonVr3Addf)]

/-- `AG_FOR_EACH_VR3_USF`. -/
def agForEachVr3Usf : List (Vr3Name × Word × Word × Word) :=
  [(.vpmax, agNeonVr3Vpmaxu, agNeonVr3Vpmaxs, agNeonVr3Vpmaxf),
    (.vpmin, agNeonVr3Vpminu, agNeonVr3Vpmins, agNeonVr3Vpminf)]

/-- `AG_FOR_EACH_VR3_IPF`. -/
def agForEachVr3Ipf : List (Vr3Name × Word × Word × Word) :=
  [(.vmul, agNeonVr3Vmuli, agNeonVr3Vmulp, agNeonVr3Vmulf)]

/-- `AG_FOR_EACH_VR3_USIP`. -/
def agForEachVr3Usip : List (Vr3Name × Word × Word × Word × Word) :=
  [(.vmull, agNeonVr3Vmullu, agNeonVr3Vmulls, agNeonVr3Vmulli,
    agNeonVr3Vmullp)]

-- ================================================================= macros

/-- A generated emitter: its name, and what it passes to
`ag_emit_vr3`. -/
structure Vr3Emitter where
  name : Vr3Name
  type : Vr3Prefix
  width : Nat
  opc : Word
  size : Word
deriving DecidableEq, Repr

/-- The generated function. -/
def Vr3Emitter.emit (f : Vr3Emitter) (e : Emitter) (q vd vn vm : Word) :
    Option Emitter :=
  agEmitVr3 e f.opc q f.size vd vn vm

/-- `IMPL_NEON_VR3_INT`. -/
def implNeonVr3Int (name : Vr3Name) (opc : Word) (type : Vr3Prefix) :
    List Vr3Emitter :=
  [⟨name, type, 32, opc, 2⟩, ⟨name, type, 16, opc, 1⟩,
    ⟨name, type, 8, opc, 0⟩]

/-- `IMPL_NEON_VR3_FLT`. -/
def implNeonVr3Flt (name : Vr3Name) (opc : Word) : List Vr3Emitter :=
  [⟨name, .f, 32, opc, 0⟩, ⟨name, .f, 64, opc, 1⟩]

/-- `IMPL_NEON_VR3_IF`. -/
def implNeonVr3If : Vr3Name × Word × Word → List Vr3Emitter
  | (name, opci, opcf) =>
      implNeonVr3Int name opci .i ++ implNeonVr3Flt name opcf

/-- `IMPL_NEON_VR3_USF`. -/
def implNeonVr3Usf : Vr3Name × Word × Word × Word → List Vr3Emitter
  | (name, opcu, opcs, opcf) =>
      implNeonVr3Int name opcu .u ++ implNeonVr3Int name opcs .s
        ++ implNeonVr3Flt name opcf

/-- `IMPL_NEON_VR3_IPF`. -/
def implNeonVr3Ipf : Vr3Name × Word × Word × Word → List Vr3Emitter
  | (name, opci, opcp, opcf) =>
      implNeonVr3Int name opci .i ++ implNeonVr3Int name opcp .p
        ++ implNeonVr3Flt name opcf

/-- `IMPL_NEON_VR3_USIP`. -/
def implNeonVr3Usip :
    Vr3Name × Word × Word × Word × Word → List Vr3Emitter
  | (name, opcu, opcs, opci, opcp) =>
      implNeonVr3Int name opcu .u ++ implNeonVr3Int name opcs .s
        ++ implNeonVr3Int name opci .i ++ implNeonVr3Int name opcp .p

/-- All emitters the tables generate. -/
def vr3Emitters : List Vr3Emitter :=
  agForEachVr3If.flatMap implNeonVr3If
    ++ agForEachVr3Usf.flatMap implNeonVr3Usf
    ++ agForEachVr3Ipf.flatMap implNeonVr3Ipf
    ++ agForEachVr3Usip.flatMap implNeonVr3Usip

end UdeBench.Ag
