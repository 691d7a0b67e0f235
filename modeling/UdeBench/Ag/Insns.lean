/-
The instruction words of the code generator: the constants of
ag/ag_insns.h and ag/ag_gen.h, and for every encoder of ag/ag_gen.c the
word it hands to `ag_emit4`, as the C expression computes it.

An `int` or `unsigned` argument is a 32-bit vector and the operators are
C's on 32 bits, in the source's order and with the source's masks (or
their absence): an operand too wide for its field spills here exactly as
it does there. `enum ag_cond` and the opcode enumeration are inductive
types with the source's numbering.

The encoders without a word of their own are elsewhere: the branch and
the literal load read the emitter (Ag/Emitter.lean), and the NEON
three-register family is generated from tables (Ag/Vr3.lean).
-/
import UdeBench.A32.Encoding

namespace UdeBench.Ag

open A32 (Word)

-- ==================================================== enumerations

/-- `enum ag_cond`. -/
inductive AgCond
  | condEq | condNe | condCs | condCc | condMi | condPl | condVs | condVc
  | condHi | condLs | condGe | condLt | condGt | condLe | condAl
deriving DecidableEq, Repr

/-- The numbering of `enum ag_cond`, in the width of the field. -/
def AgCond.code : AgCond → BitVec 4
  | condEq => 0 | condNe => 1 | condCs => 2 | condCc => 3 | condMi => 4
  | condPl => 5 | condVs => 6 | condVc => 7 | condHi => 8 | condLs => 9
  | condGe => 10 | condLt => 11 | condGt => 12 | condLe => 13
  | condAl => 14

/-- The enumerator as the C expressions use it. -/
def AgCond.val (c : AgCond) : Word := c.code.setWidth 32

/-- No `ag_cond` is 1111, the unconditional space. -/
@[simp] theorem AgCond.code_ne (c : AgCond) : c.code ≠ 0xf#4 := by
  cases c <;> decide

/-- Conditions are told apart by their codes. -/
theorem AgCond.code_inj {c c' : AgCond} (h : c.code = c'.code) :
    c = c' := by
  cases c <;> cases c' <;> first | rfl | exact absurd h (by decide)

/-- `enum ag_data_process_opcode`. -/
inductive AgDataProcessOpcode
  | and | eor | sub | rsb | add | adc | sbc | rsc
  | tst | teq | cmp | cmn | orr | mov | bic | mvn
deriving DecidableEq, Repr

/-- The numbering of `enum ag_data_process_opcode`. -/
def AgDataProcessOpcode.code : AgDataProcessOpcode → BitVec 4
  | and => 0 | eor => 1 | sub => 2 | rsb => 3 | add => 4 | adc => 5
  | sbc => 6 | rsc => 7 | tst => 8 | teq => 9 | cmp => 10 | cmn => 11
  | orr => 12 | mov => 13 | bic => 14 | mvn => 15

/-- The enumerator as the C expressions use it. -/
def AgDataProcessOpcode.val (o : AgDataProcessOpcode) : Word :=
  o.code.setWidth 32

-- ======================================================== constants

def agSp : Word := 13
def agLr : Word := 14
def agPc : Word := 15

def agShiftLogLeft : Word := 0
def agShiftLogRight : Word := 1
def agShiftArithRight : Word := 2

/-- `AG_SHIFT_AMOUNT(am, type)`. -/
def agShiftAmount (am type : Word) : Word := (am <<< 3) ||| (type <<< 1)

def agLslAm (am : Word) : Word := agShiftAmount am agShiftLogLeft
def agLsrAm (am : Word) : Word := agShiftAmount am agShiftLogRight
def agAsrAm (am : Word) : Word := agShiftAmount am agShiftArithRight

/-- `AG_SHIFT_REG(reg, type)`. -/
def agShiftReg (reg type : Word) : Word :=
  (reg <<< 4) ||| (type <<< 1) ||| 1#32

def agLslReg (r : Word) : Word := agShiftReg r agShiftLogLeft
def agLsrReg (r : Word) : Word := agShiftReg r agShiftLogRight
def agAsrReg (r : Word) : Word := agShiftReg r agShiftArithRight

def agPreIncr : Word := 0x01200000
def agPostIncr : Word := 0x00200000
def agOffsetAddr : Word := 0x01000000

def agLdrReg : Word := 0x06100000
def agStrReg : Word := 0x06000000
def agLdrbReg : Word := 0x06500000
def agStrbReg : Word := 0x06400000

def agLdrImm : Word := 0x05100000
def agStrImm : Word := 0x05000000
def agLdrbImm : Word := 0x05500000
def agStrbImm : Word := 0x05400000

/-- The addressing modes of a load or store: `AG_OFFSET_ADDR`,
`AG_PRE_INCR`, `AG_POST_INCR`. -/
inductive AgIncr
  | offsetAddr | preIncr | postIncr
deriving DecidableEq, Repr

/-- The constant of the mode. -/
def AgIncr.val : AgIncr → Word
  | offsetAddr => agOffsetAddr
  | preIncr => agPreIncr
  | postIncr => agPostIncr

/-- The shifts by an immediate amount: `AG_LSL_AM`, `AG_LSR_AM`,
`AG_ASR_AM`. -/
inductive AgShift
  | lslAm | lsrAm | asrAm
deriving DecidableEq, Repr

/-- The shift operand for an amount. -/
def AgShift.val : AgShift → Word → Word
  | lslAm => agLslAm
  | lsrAm => agLsrAm
  | asrAm => agAsrAm

/-- The four loads and stores of a word or an unsigned byte. -/
inductive LdrstrOp
  | ldr | str | ldrb | strb
deriving DecidableEq, Repr

/-- The L bit of the operation. -/
def LdrstrOp.load : LdrstrOp → BitVec 1
  | ldr => 1
  | str => 0
  | ldrb => 1
  | strb => 0

/-- The B bit of the operation. -/
def LdrstrOp.byte : LdrstrOp → BitVec 1
  | ldr => 0
  | str => 0
  | ldrb => 1
  | strb => 1

/-- `AG_LDR_IMM` .. `AG_STRB_IMM`. -/
def LdrstrOp.immOpc : LdrstrOp → Word
  | ldr => agLdrImm
  | str => agStrImm
  | ldrb => agLdrbImm
  | strb => agStrbImm

/-- `AG_LDR_REG` .. `AG_STRB_REG`. -/
def LdrstrOp.regOpc : LdrstrOp → Word
  | ldr => agLdrReg
  | str => agStrReg
  | ldrb => agLdrbReg
  | strb => agStrbReg

-- =========================================== the words of the encoders

/-- `ag_emit_bx`. -/
def bxWord (cc : AgCond) (reg : Word) : Word :=
  (cc.val <<< 28) ||| 0x012fff10#32 ||| reg

/-- `ag_emit_data_process_reg`. -/
def dataProcessRegWord (cc : AgCond) (opc : AgDataProcessOpcode)
    (s rd rn rm shift : Word) : Word :=
  (cc.val <<< 28) ||| (opc.val <<< 21) ||| (s <<< 20) ||| (rn <<< 16)
    ||| (rd <<< 12) ||| (shift <<< 4) ||| rm

/-- `ag_emit_data_process_imm`, past its range check. -/
def dataProcessImmWord (cc : AgCond) (opc : AgDataProcessOpcode)
    (s rd rn imm : Word) : Word :=
  (cc.val <<< 28) ||| (1#32 <<< 25) ||| (opc.val <<< 21) ||| (s <<< 20)
    ||| (rn <<< 16) ||| (rd <<< 12) ||| imm

/-- `ag_emit_vdup`. -/
def vdupWord (cc : AgCond) (opc q vd rt : Word) : Word :=
  let dh := (vd >>> 4) &&& 1#32
  let dl := vd &&& 0xf#32
  (cc.val <<< 28) ||| opc ||| (q <<< 21) ||| (dl <<< 16) ||| (rt <<< 12)
    ||| (dh <<< 7)

/-- `ag_emit_vcvt`. -/
def vcvtWord (opc q vd vm : Word) : Word :=
  let dh := (vd >>> 4) &&& 1#32
  let dl := vd &&& 0xf#32
  let mh := (vm >>> 4) &&& 1#32
  let ml := vm &&& 0xf#32
  opc ||| (dh <<< 22) ||| dl <<< 12 ||| (q <<< 6) ||| (mh <<< 5) ||| ml

/-- `ag_emit_mul`. -/
def mulWord (cc : AgCond) (s rd rm rs : Word) : Word :=
  (cc.val <<< 28) ||| 0x00000090#32 ||| (s <<< 20) ||| (rd <<< 16)
    ||| (rs <<< 8) ||| rm

/-- `ag_emit_mla`. -/
def mlaWord (cc : AgCond) (s rd rm rs rn : Word) : Word :=
  (cc.val <<< 28) ||| 0x00200090#32 ||| (s <<< 20) ||| (rd <<< 16)
    ||| (rn <<< 12) ||| (rs <<< 8) ||| rm

/-- `ag_emit_ldrstr_reg`. -/
def ldrstrRegWord (opc : Word) (cc : AgCond)
    (rt rn rm shift add incr : Word) : Word :=
  let u := if add ≠ 0#32 then 1#32 <<< 23 else 0#32
  incr ||| opc ||| (cc.val <<< 28) ||| u ||| (rn <<< 16)
    ||| (rt <<< 12) ||| (shift <<< 4) ||| rm

/-- The U bit `ag_emit_ldrstr_imm` sets for its signed `imm`. -/
def ldrstrImmU (imm : Word) : Word :=
  if (0#32).sle imm then 1#32 <<< 23 else 0#32

/-- The magnitude `ag_emit_ldrstr_imm` computes from its signed `imm`,
under the source's mask of 13 bits. -/
def ldrstrImmMag (imm : Word) : Word :=
  (if (0#32).sle imm then imm else imm * (-1#32))
    &&& ((1#32 <<< 13) - 1#32)

/-- `ag_emit_ldrstr_imm`. -/
def ldrstrImmWord (opc : Word) (cc : AgCond) (rt rn imm incr : Word) :
    Word :=
  incr ||| opc ||| (cc.val <<< 28) ||| ldrstrImmU imm ||| (rn <<< 16)
    ||| (rt <<< 12) ||| ldrstrImmMag imm

/-- `ag_emit_ldstm`. -/
def ldstmWord (cc : AgCond) (p u s w l rn regBits : Word) : Word :=
  (cc.val <<< 28) ||| 0x08000000#32 ||| (p <<< 24) ||| (u <<< 23)
    ||| (s <<< 22) ||| (w <<< 21) ||| (l <<< 20) ||| (rn <<< 16)
    ||| regBits

/-- `ag_emit_ldrex`. -/
def ldrexWord (cc : AgCond) (rd rn : Word) : Word :=
  0x01900f9f#32 ||| (cc.val <<< 28) ||| (rn <<< 16) ||| (rd <<< 12)

/-- `ag_emit_strex`. -/
def strexWord (cc : AgCond) (rd rm rn : Word) : Word :=
  0x01800f90#32 ||| (cc.val <<< 28) ||| (rn <<< 16) ||| (rd <<< 12)
    ||| rm

/-- `ag_emit_vldst1`. -/
def vldst1Word (vd rn rm align opc size : Word) : Word :=
  let dh := (vd >>> 4) &&& 1#32
  let dl := vd &&& 0xf#32
  opc ||| (dh <<< 22) ||| (rn <<< 16) ||| (dl <<< 12) ||| (size <<< 10)
    ||| (align <<< 4) ||| rm

/-- `ag_emit_vr3`: with `q` set the register numbers are doubled
first. -/
def vr3Word (opc q size vd vn vm : Word) : Word :=
  let dbl := fun v : Word => if q ≠ 0#32 then v <<< 1 else v
  let vd := dbl vd
  let vn := dbl vn
  let vm := dbl vm
  let dh := (vd >>> 4) &&& 1#32
  let dl := vd &&& 0xf#32
  let nh := (vn >>> 4) &&& 1#32
  let nl := vn &&& 0xf#32
  let mh := (vm >>> 4) &&& 1#32
  let ml := vm &&& 0xf#32
  (0xf#32 <<< 28) ||| (dh <<< 22) ||| (size <<< 20) ||| (nl <<< 16)
    ||| (dl <<< 12) ||| opc ||| (nh <<< 7) ||| (q <<< 6) ||| (mh <<< 5)
    ||| ml

/-- An encoder of ag/ag_gen.c that ends in one `emit4` of a word built
from its arguments alone. -/
inductive Insn
  | bx (cc : AgCond) (reg : Word)
  | dataProcessReg (cc : AgCond) (opc : AgDataProcessOpcode)
      (s rd rn rm shift : Word)
  | vr3 (opc q size vd vn vm : Word)
  | vdup (cc : AgCond) (opc q vd rt : Word)
  | vcvt (opc q vd vm : Word)
  | mul (cc : AgCond) (s rd rm rs : Word)
  | mla (cc : AgCond) (s rd rm rs rn : Word)
  | ldrstrReg (opc : Word) (cc : AgCond)
      (rt rn rm shift add incr : Word)
  | ldstm (cc : AgCond) (p u s w l rn regBits : Word)
  | ldrstrImm (opc : Word) (cc : AgCond) (rt rn imm incr : Word)
  | ldrex (cc : AgCond) (rd rn : Word)
  | strex (cc : AgCond) (rd rm rn : Word)
  | vldst1 (vd rn rm align opc size : Word)
deriving DecidableEq, Repr

/-- The word the encoder emits. -/
def Insn.word : Insn → Word
  | bx cc reg => bxWord cc reg
  | dataProcessReg cc opc s rd rn rm shift =>
      dataProcessRegWord cc opc s rd rn rm shift
  | vr3 opc q size vd vn vm => vr3Word opc q size vd vn vm
  | vdup cc opc q vd rt => vdupWord cc opc q vd rt
  | vcvt opc q vd vm => vcvtWord opc q vd vm
  | mul cc s rd rm rs => mulWord cc s rd rm rs
  | mla cc s rd rm rs rn => mlaWord cc s rd rm rs rn
  | ldrstrReg opc cc rt rn rm shift add incr =>
      ldrstrRegWord opc cc rt rn rm shift add incr
  | ldstm cc p u s w l rn regBits => ldstmWord cc p u s w l rn regBits
  | ldrstrImm opc cc rt rn imm incr => ldrstrImmWord opc cc rt rn imm incr
  | ldrex cc rd rn => ldrexWord cc rd rn
  | strex cc rd rm rn => strexWord cc rd rm rn
  | vldst1 vd rn rm align opc size => vldst1Word vd rn rm align opc size

end UdeBench.Ag
