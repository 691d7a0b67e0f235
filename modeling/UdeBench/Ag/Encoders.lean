/-
The encoders of ag/ag_gen.c by the names a program calls them under.

The data processing emitters are what `DATA_PROCESS` expands to, beside
the hand-written ones of cmp and cmn, which have neither a destination
nor an S argument. The parameters here carry the names of the
definitions in ag/ag_gen.c; the prototypes of ag/ag_gen.h name the two
operands of a register form the other way round, and it is a prototype a
caller reads (`DpRegCall.emit`).

`ag_emit_ldm`, `ag_emit_stm` and the macros over them fix arguments of
`ag_emit_ldstm`. The single-lane NEON accesses are generated from a table
like the three-register family.
-/
import UdeBench.Ag.Emitter

namespace UdeBench.Ag

open A32 (Word)

-- ================================================= data processing

/-- The `_reg` function of `DATA_PROCESS(name, opc)`. -/
def dataProcessReg (opc : AgDataProcessOpcode) (e : Emitter) (cc : AgCond)
    (s rd rn rm shift : Word) : Option Emitter :=
  agEmitDataProcessReg e cc opc s rd rn rm shift

/-- The `_imm` function of `DATA_PROCESS(name, opc)`. -/
def dataProcessImm (opc : AgDataProcessOpcode) (e : Emitter) (cc : AgCond)
    (s rd rn imm : Word) : Option (Emitter × Int) :=
  agEmitDataProcessImm e cc opc s rd rn imm

def agEmitAndReg := dataProcessReg .and
def agEmitEorReg := dataProcessReg .eor
def agEmitSubReg := dataProcessReg .sub
def agEmitRsbReg := dataProcessReg .rsb
def agEmitAddReg := dataProcessReg .add
def agEmitAdcReg := dataProcessReg .adc
def agEmitSbcReg := dataProcessReg .sbc
def agEmitRscReg := dataProcessReg .rsc
def agEmitTstReg := dataProcessReg .tst
def agEmitTeqReg := dataProcessReg .teq
def agEmitOrrReg := dataProcessReg .orr
def agEmitMovReg := dataProcessReg .mov
def agEmitBicReg := dataProcessReg .bic
def agEmitMvnReg := dataProcessReg .mvn

def agEmitAndImm := dataProcessImm .and
def agEmitEorImm := dataProcessImm .eor
def agEmitRsbImm := dataProcessImm .rsb
def agEmitAddImm := dataProcessImm .add
def agEmitAdcImm := dataProcessImm .adc
def agEmitSbcImm := dataProcessImm .sbc
def agEmitRscImm := dataProcessImm .rsc
def agEmitTstImm := dataProcessImm .tst
def agEmitTeqImm := dataProcessImm .teq
def agEmitOrrImm := dataProcessImm .orr
def agEmitBicImm := dataProcessImm .bic

def agEmitCmpReg (e : Emitter) (cc : AgCond) (rm rn shift : Word) :
    Option Emitter :=
  agEmitDataProcessReg e cc .cmp 1 0 rn rm shift

def agEmitCmpImm (e : Emitter) (cc : AgCond) (rn imm : Word) :
    Option (Emitter × Int) :=
  agEmitDataProcessImm e cc .cmp 1 0 rn imm

def agEmitCmnReg (e : Emitter) (cc : AgCond) (rm rn shift : Word) :
    Option Emitter :=
  agEmitDataProcessReg e cc .cmn 1 0 rn rm shift

def agEmitCmnImm (e : Emitter) (cc : AgCond) (rn imm : Word) :
    Option (Emitter × Int) :=
  agEmitDataProcessImm e cc .cmn 1 0 rn imm

-- ============================================ block data transfer

def agEmitLdm (e : Emitter) (cc : AgCond) (p u s w rn regBits : Word) :
    Option Emitter :=
  agEmitLdstm e cc p u s w 1 rn regBits

def agEmitStm (e : Emitter) (cc : AgCond) (p u s w rn regBits : Word) :
    Option Emitter :=
  agEmitLdstm e cc p u s w 0 rn regBits

def agEmitLdmda (e : Emitter) (cc : AgCond) (w rn regBits : Word) :
    Option Emitter :=
  agEmitLdm e cc 0 0 0 w rn regBits

def agEmitLdmia (e : Emitter) (cc : AgCond) (w rn regBits : Word) :
    Option Emitter :=
  agEmitLdm e cc 0 1 0 w rn regBits

def agEmitLdmdb (e : Emitter) (cc : AgCond) (w rn regBits : Word) :
    Option Emitter :=
  agEmitLdm e cc 1 0 0 w rn regBits

def agEmitLdmib (e : Emitter) (cc : AgCond) (w rn regBits : Word) :
    Option Emitter :=
  agEmitLdm e cc 1 1 0 w rn regBits

def agEmitStmda (e : Emitter) (cc : AgCond) (w rn regBits : Word) :
    Option Emitter :=
  agEmitStm e cc 0 0 0 w rn regBits

def agEmitStmia (e : Emitter) (cc : AgCond) (w rn regBits : Word) :
    Option Emitter :=
  agEmitStm e cc 0 1 0 w rn regBits

def agEmitStmdb (e : Emitter) (cc : AgCond) (w rn regBits : Word) :
    Option Emitter :=
  agEmitStm e cc 1 0 0 w rn regBits

def agEmitStmib (e : Emitter) (cc : AgCond) (w rn regBits : Word) :
    Option Emitter :=
  agEmitStm e cc 1 1 0 w rn regBits

-- ========================================================= VDUP, VCVT

def agEmitVdup8 (e : Emitter) (cc : AgCond) (q vd rt : Word) :
    Option Emitter :=
  agEmitVdup e cc (0x0e800b10#32 ||| 0x00400000#32) q vd rt

def agEmitVdup16 (e : Emitter) (cc : AgCond) (q vd rt : Word) :
    Option Emitter :=
  agEmitVdup e cc (0x0e800b10#32 ||| 0x00000020#32) q vd rt

def agEmitVcvtF32S32 (e : Emitter) (q vd vm : Word) : Option Emitter :=
  agEmitVcvt e 0xf3bb0600 q vd vm

def agEmitVcvtS32F32 (e : Emitter) (q vd vm : Word) : Option Emitter :=
  agEmitVcvt e 0xf3bb0700 q vd vm

-- ======================================================== single lanes

def agVld1_1 : Word := 0xf4a00000
def agVld2_1 : Word := 0xf4a00100
def agVld3_1 : Word := 0xf4a00200
def agVld4_1 : Word := 0xf4a00300

def agVst1_1 : Word := 0xf4800000
def agVst2_1 : Word := 0xf4800100
def agVst3_1 : Word := 0xf4800200
def agVst4_1 : Word := 0xf4800300

/-- The names of the table. -/
inductive VldstName
  | vld | vst
deriving DecidableEq, Repr

/-- A generated emitter: the name `IMPL_VLDST` gives it
(`ag_emit_vld2_32` is `vld`, 2, 32), and what it passes to
`ag_emit_vldst1`. -/
structure VldstEmitter where
  name : VldstName
  nelem : Nat
  type : Nat
  opc : Word
  sizeBits : Word
deriving DecidableEq, Repr

/-- The generated function. -/
def VldstEmitter.emit (f : VldstEmitter) (e : Emitter)
    (vd rn rm align : Word) : Option Emitter :=
  agEmitVldst1 e vd rn rm align f.opc f.sizeBits

/-- `AG_FOR_EACH_VLDST_NELEM`. -/
def agForEachVldstNelem (type : Nat) (sizeBits : Word) :
    List VldstEmitter :=
  [⟨.vld, 1, type, agVld1_1, sizeBits⟩, ⟨.vld, 2, type, agVld2_1, sizeBits⟩,
    ⟨.vld, 3, type, agVld3_1, sizeBits⟩, ⟨.vld, 4, type, agVld4_1, sizeBits⟩,
    ⟨.vst, 1, type, agVst1_1, sizeBits⟩, ⟨.vst, 2, type, agVst2_1, sizeBits⟩,
    ⟨.vst, 3, type, agVst3_1, sizeBits⟩, ⟨.vst, 4, type, agVst4_1, sizeBits⟩]

/-- `AG_FOR_EACH_VLDST`. -/
def vldstEmitters : List VldstEmitter :=
  agForEachVldstNelem 8 0 ++ agForEachVldstNelem 16 1
    ++ agForEachVldstNelem 32 2

end UdeBench.Ag
