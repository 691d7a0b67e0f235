/-
What the emitted words decode to, class by class. Each lemma takes its
operands in the widths of the encoding diagram, where nothing can spill,
and reads the word back through the diagram's own decoder.

The windows are settled by the simp lemmas of Lib/Bits.lean: one shifted
field comes back whole, the others contribute nothing.
-/
import UdeBench.Ag.Emitter

namespace UdeBench.Ag

open A32 (Word)
open Bits

-- ================================================= data processing

/-- The four test opcodes. -/
def AgDataProcessOpcode.isTest : AgDataProcessOpcode → Bool
  | tst => true
  | teq => true
  | cmp => true
  | cmn => true
  | _ => false

/-- They are the ones with the upper bits 10. -/
theorem AgDataProcessOpcode.isTest_iff (opc : AgDataProcessOpcode) :
    opc.isTest = true ↔ bits opc.code 2 2 = 0b10#2 := by
  cases opc <;> decide

/-- The opcode's upper bits in their place. -/
theorem bits_opcode (opc : AgDataProcessOpcode) :
    bits (opc.code.setWidth 32 <<< 21) 23 2 = bits opc.code 2 2 := by
  cases opc <;> decide

/-- A data processing word with an eight-bit immediate. The test opcodes
exist with S set only. -/
theorem decode_dataProcessImm (cc : AgCond) (opc : AgDataProcessOpcode)
    (s : BitVec 1) (rd rn : BitVec 4) (x : BitVec 8)
    (hs : opc.isTest = true → s = 1#1) :
    A32.decodeDpImm (dataProcessImmWord cc opc (s.setWidth 32)
        (rd.setWidth 32) (rn.setWidth 32) (x.setWidth 32))
      = some { cond := cc.code, op := opc.code, s := s, rn := rn, rd := rd,
               imm12 := x.setWidth 12 } := by
  have hcond := cc.code_ne
  have htest := bits_opcode opc
  have hopc : bits opc.code 2 2 = 0b10#2 → ¬ s = 0#1 := by
    intro h
    rw [hs (opc.isTest_iff.mpr h)]
    decide
  have himm : bits (x.setWidth 32) 0 12 = x.setWidth 12 :=
    bits_setWidth_zero x (by decide)
  unfold A32.decodeDpImm dataProcessImmWord
  simp [AgCond.val, AgDataProcessOpcode.val, hcond, htest, himm]
  exact hopc

/-- An unrotated byte expands to itself. -/
theorem expandImm_byte (x : BitVec 8) :
    A32.expandImm (x.setWidth 12) = x.setWidth 32 := by
  revert x
  decide

/-- A word below 256 is a byte widened. -/
theorem byte_of_lt {x : Word} (h : x.toNat < 256) :
    (x.setWidth 8).setWidth 32 = x := by
  apply BitVec.eq_of_toNat_eq
  simp only [BitVec.toNat_setWidth]
  omega

-- ================================================ loads and stores

/-- The magnitude of an offset, as the immediate forms mask it. -/
def magnitude13 (imm : Word) : BitVec 13 :=
  (if (0#32).sle imm then imm else imm * (-1#32)).setWidth 13

/-- The U bit of an offset. -/
def offsetU (imm : Word) : BitVec 1 := if (0#32).sle imm then 1 else 0

/-- The masked magnitude is that of the offset modulo 2^13. -/
theorem magnitude13_toNat (imm : Word) :
    (magnitude13 imm).toNat = imm.toInt.natAbs % 8192 := by
  have hint := BitVec.toInt_eq_toNat_cond imm
  have hlt := imm.isLt
  have hneg : (-1#32 : Word).toNat = 2 ^ 32 - 1 := by decide
  unfold magnitude13
  rw [BitVec.toNat_setWidth]
  split
  · next hs =>
    have hsign : 0 ≤ imm.toInt := by simpa [BitVec.sle] using hs
    omega
  · next hs =>
    have hsign : imm.toInt < 0 := by simpa [BitVec.sle] using hs
    rw [BitVec.toNat_mul, hneg]
    omega

/-- An immediate load or store, in the widths of its fields: P is in the
opcode, and the thirteenth bit of the magnitude falls on the low bit of
Rt. -/
theorem decode_ldrstrImm (op : LdrstrOp) (cc : AgCond) (rt rn : BitVec 4)
    (imm : Word) (p w : BitVec 1) :
    A32.decodeLoadStore (ldrstrImmWord op.immOpc cc (rt.setWidth 32)
        (rn.setWidth 32) imm
        ((p.setWidth 32 <<< 24) ||| (w.setWidth 32 <<< 21)))
      = some { cond := cc.code, load := op.load, byte := op.byte,
               mode := A32.addrMode 1 w, rn := rn,
               rt := rt ||| bits (magnitude13 imm) 12 4,
               offset := .imm (offsetU imm)
                 (bits (magnitude13 imm) 0 12) } := by
  have hcond := cc.code_ne
  have hmag : ldrstrImmMag imm = (magnitude13 imm).setWidth 32 :=
    and_mask_eq_setWidth _ (show 13 ≤ 32 by decide)
  have hu : ldrstrImmU imm = (offsetU imm).setWidth 32 <<< 23 := by
    unfold ldrstrImmU offsetU
    split <;> rfl
  have h12 : bits ((magnitude13 imm).setWidth 32) 12 4
      = bits (magnitude13 imm) 12 4 := bits_setWidth _ (by decide)
  have h0 : bits ((magnitude13 imm).setWidth 32) 0 12
      = bits (magnitude13 imm) 0 12 := bits_setWidth _ (by decide)
  have hp : p ||| 1#1 = 1#1 := by
    revert p
    decide
  unfold A32.decodeLoadStore ldrstrImmWord
  rw [hmag, hu]
  cases op <;>
    simp [AgCond.val, hcond, h12, h0, hp, LdrstrOp.immOpc, LdrstrOp.load,
      LdrstrOp.byte, agLdrImm, agStrImm, agLdrbImm, agStrbImm]

/-- A shift operand in its place: the amount above the type. -/
theorem shift_field (am : BitVec 5) (type : BitVec 2) :
    agShiftAmount (am.setWidth 32) (type.setWidth 32) <<< 4
      = (am.setWidth 32 <<< 7) ||| (type.setWidth 32 <<< 5) := by
  unfold agShiftAmount
  rw [BitVec.shiftLeft_or_distrib, ← BitVec.shiftLeft_add,
    ← BitVec.shiftLeft_add]

/-- A register load or store, in the widths of its fields: P is the
mode's alone. -/
theorem decode_ldrstrReg (op : LdrstrOp) (cc : AgCond)
    (rt rn rm : BitVec 4) (am : BitVec 5) (type : BitVec 2) (add : Bool)
    (p w : BitVec 1) :
    A32.decodeLoadStore (ldrstrRegWord op.regOpc cc (rt.setWidth 32)
        (rn.setWidth 32) (rm.setWidth 32)
        (agShiftAmount (am.setWidth 32) (type.setWidth 32))
        (if add then 1 else 0)
        ((p.setWidth 32 <<< 24) ||| (w.setWidth 32 <<< 21)))
      = some { cond := cc.code, load := op.load, byte := op.byte,
               mode := A32.addrMode p w, rn := rn, rt := rt,
               offset := .reg (BitVec.ofBool add) rm type am } := by
  have hcond := cc.code_ne
  have hu : (if (if add then (1 : Word) else 0) ≠ 0#32 then 1#32 <<< 23
      else 0#32) = (BitVec.ofBool add).setWidth 32 <<< 23 := by
    cases add <;> decide
  unfold A32.decodeLoadStore ldrstrRegWord
  simp only [hu, shift_field]
  cases op <;>
    simp [AgCond.val, hcond, LdrstrOp.regOpc, LdrstrOp.load,
      LdrstrOp.byte, agLdrReg, agStrReg, agLdrbReg, agStrbReg]

-- ======================================================== branches

/-- A branch word. -/
theorem decode_branchOffset (cc : AgCond) (l : BitVec 1) (off : BitVec 24) :
    A32.decodeBranch ((cc.val <<< 28) ||| (0x5#32 <<< 25)
        ||| (l.setWidth 32 <<< 24) ||| off.setWidth 32)
      = some { cond := cc.code, link := l, imm24 := off } := by
  have hcond := cc.code_ne
  unfold A32.decodeBranch
  simp [AgCond.val, hcond]

/-- `ag_emit_bx`. -/
theorem decode_bx (cc : AgCond) (reg : BitVec 4) :
    A32.decodeBx (bxWord cc (reg.setWidth 32))
      = some { cond := cc.code, rm := reg } := by
  have hcond := cc.code_ne
  unfold A32.decodeBx bxWord
  simp [AgCond.val, hcond]

-- ============================================ block data transfer

/-- `ag_emit_ldstm`. -/
theorem decode_ldstm (cc : AgCond) (p u s w l : BitVec 1) (rn : BitVec 4)
    (regs : BitVec 16) :
    A32.decodeBlock (ldstmWord cc (p.setWidth 32) (u.setWidth 32)
        (s.setWidth 32) (w.setWidth 32) (l.setWidth 32) (rn.setWidth 32)
        (regs.setWidth 32))
      = some { cond := cc.code, p := p, u := u, s := s, w := w, load := l,
               rn := rn, regs := regs } := by
  have hcond := cc.code_ne
  unfold A32.decodeBlock ldstmWord
  simp [AgCond.val, hcond]

-- ============================================ NEON register numbers

/-- The low part of a split D register number. -/
theorem reg_low (v : BitVec 5) :
    v.setWidth 32 &&& 0xf#32 = (bits v 0 4).setWidth 32 := by
  revert v
  decide

/-- The high bit of a split D register number. -/
theorem reg_high (v : BitVec 5) :
    (v.setWidth 32 >>> 4) &&& 1#32 = (bits v 4 1).setWidth 32 := by
  revert v
  decide

/-- The two parts make up the register number. -/
theorem reg_join (v : BitVec 5) : bits v 4 1 ++ bits v 0 4 = v := by
  revert v
  decide

end UdeBench.Ag
