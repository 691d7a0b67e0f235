/-
The encoders beside data processing, single loads and stores and the NEON
three-register family: BX, the multiplications, LDM and STM with the
names that abbreviate them, the exclusive accesses, VDUP, VCVT and the
single-lane accesses.

A call is its operands in the widths of their fields; those of the names
that abbreviate an LDM or STM expand to it (`EncCall.expand`).
`EncOp.instr` is the instruction a caller asks for. It is what the word
decodes to (`EncOp.decode_word`), so two calls with one word ask for the
same instruction, and from an instruction the call can be read back
(`EncOp.instr_inj`). Besides, a word is put together from parts of which
no two share a bit (`EncOp.parts_apart`).
-/
import UdeBench.Ag.Encoders
import UdeBench.Ag.Proofs.Decode

namespace UdeBench.Ag

open A32 (Word)
open Bits

-- ================================================================ calls

/-- The suffix of an LDM or STM macro. -/
inductive BlockMode
  | da | ia | db | ib
deriving DecidableEq, Repr

/-- The element size in the name of a VDUP. -/
inductive VdupSize
  | vdup8 | vdup16 | vdup32
deriving DecidableEq, Repr

/-- The two conversions. -/
inductive VcvtOp
  | f32S32 | s32F32
deriving DecidableEq, Repr

/-- A call of an encoder that abbreviates no other, with operands in
range. -/
inductive EncOp
  | bx (cc : AgCond) (reg : BitVec 4)
  | mul (cc : AgCond) (s : BitVec 1) (rd rm rs : BitVec 4)
  | mla (cc : AgCond) (s : BitVec 1) (rd rm rs rn : BitVec 4)
  | ldm (cc : AgCond) (p u s w : BitVec 1) (rn : BitVec 4)
      (regBits : BitVec 16)
  | stm (cc : AgCond) (p u s w : BitVec 1) (rn : BitVec 4)
      (regBits : BitVec 16)
  | ldrex (cc : AgCond) (rd rn : BitVec 4)
  | strex (cc : AgCond) (rd rm rn : BitVec 4)
  | vdup (size : VdupSize) (cc : AgCond) (q : BitVec 1) (vd : BitVec 5)
      (rt : BitVec 4)
  | vcvt (op : VcvtOp) (q : BitVec 1) (vd vm : BitVec 5)
  | vldst (f : VldstEmitter) (hf : f ∈ vldstEmitters) (vd : BitVec 5)
      (rn rm align : BitVec 4)
deriving DecidableEq

/-- A call of any of them. -/
inductive EncCall
  | op (o : EncOp)
  | ldmMode (mode : BlockMode) (cc : AgCond) (w : BitVec 1)
      (rn : BitVec 4) (regBits : BitVec 16)
  | stmMode (mode : BlockMode) (cc : AgCond) (w : BitVec 1)
      (rn : BitVec 4) (regBits : BitVec 16)
  | push (cc : AgCond) (regBits : BitVec 16)
  | pop (cc : AgCond) (regBits : BitVec 16)
deriving DecidableEq

/-- `ag_emit_ldmda` .. `ag_emit_ldmib`. -/
def BlockMode.emitLdm (e : Emitter) : BlockMode → AgCond → Word → Word →
    Word → Option Emitter
  | da => agEmitLdmda e
  | ia => agEmitLdmia e
  | db => agEmitLdmdb e
  | ib => agEmitLdmib e

/-- `ag_emit_stmda` .. `ag_emit_stmib`. -/
def BlockMode.emitStm (e : Emitter) : BlockMode → AgCond → Word → Word →
    Word → Option Emitter
  | da => agEmitStmda e
  | ia => agEmitStmia e
  | db => agEmitStmdb e
  | ib => agEmitStmib e

/-- `ag_emit_vdup8` .. `ag_emit_vdup32`. -/
def VdupSize.emit (e : Emitter) : VdupSize → AgCond → Word → Word →
    Word → Option Emitter
  | vdup8 => agEmitVdup8 e
  | vdup16 => agEmitVdup16 e
  | vdup32 => agEmitVdup32 e

/-- `ag_emit_vcvt_f32_s32`, `ag_emit_vcvt_s32_f32`. -/
def VcvtOp.emit (e : Emitter) : VcvtOp → Word → Word → Word →
    Option Emitter
  | f32S32 => agEmitVcvtF32S32 e
  | s32F32 => agEmitVcvtS32F32 e

/-- The emitter called. -/
def EncOp.emit (e : Emitter) : EncOp → Option Emitter
  | bx cc reg => agEmitBx e cc (reg.setWidth 32)
  | mul cc s rd rm rs =>
      agEmitMul e cc (s.setWidth 32) (rd.setWidth 32) (rm.setWidth 32)
        (rs.setWidth 32)
  | mla cc s rd rm rs rn =>
      agEmitMla e cc (s.setWidth 32) (rd.setWidth 32) (rm.setWidth 32)
        (rs.setWidth 32) (rn.setWidth 32)
  | ldm cc p u s w rn regBits =>
      agEmitLdm e cc (p.setWidth 32) (u.setWidth 32) (s.setWidth 32)
        (w.setWidth 32) (rn.setWidth 32) (regBits.setWidth 32)
  | stm cc p u s w rn regBits =>
      agEmitStm e cc (p.setWidth 32) (u.setWidth 32) (s.setWidth 32)
        (w.setWidth 32) (rn.setWidth 32) (regBits.setWidth 32)
  | ldrex cc rd rn => agEmitLdrex e cc (rd.setWidth 32) (rn.setWidth 32)
  | strex cc rd rm rn =>
      agEmitStrex e cc (rd.setWidth 32) (rm.setWidth 32) (rn.setWidth 32)
  | vdup size cc q vd rt =>
      size.emit e cc (q.setWidth 32) (vd.setWidth 32) (rt.setWidth 32)
  | vcvt op q vd vm =>
      op.emit e (q.setWidth 32) (vd.setWidth 32) (vm.setWidth 32)
  | vldst f _ vd rn rm align =>
      f.emit e (vd.setWidth 32) (rn.setWidth 32) (rm.setWidth 32)
        (align.setWidth 32)

def EncCall.emit (e : Emitter) : EncCall → Option Emitter
  | op o => o.emit e
  | ldmMode mode cc w rn regBits =>
      mode.emitLdm e cc (w.setWidth 32) (rn.setWidth 32)
        (regBits.setWidth 32)
  | stmMode mode cc w rn regBits =>
      mode.emitStm e cc (w.setWidth 32) (rn.setWidth 32)
        (regBits.setWidth 32)
  | push cc regBits => agEmitPush e cc (regBits.setWidth 32)
  | pop cc regBits => agEmitPop e cc (regBits.setWidth 32)

-- ========================================================= what is meant

/-- P and U of a suffix. -/
def BlockMode.p : BlockMode → BitVec 1
  | da => 0
  | ia => 0
  | db => 1
  | ib => 1

def BlockMode.u : BlockMode → BitVec 1
  | da => 0
  | ia => 1
  | db => 0
  | ib => 1

/-- What a call abbreviates: push is STMDB and pop LDMIA, of SP with
writeback. -/
def EncCall.expand : EncCall → EncOp
  | op o => o
  | ldmMode mode cc w rn regBits => .ldm cc mode.p mode.u 0 w rn regBits
  | stmMode mode cc w rn regBits => .stm cc mode.p mode.u 0 w rn regBits
  | push cc regBits => .stm cc 1 0 0 1 13 regBits
  | pop cc regBits => .ldm cc 0 1 0 1 13 regBits

/-- The size bits `b` and `e` of a VDUP. -/
def VdupSize.b : VdupSize → BitVec 1
  | vdup8 => 1
  | vdup16 => 0
  | vdup32 => 0

def VdupSize.e : VdupSize → BitVec 1
  | vdup8 => 0
  | vdup16 => 1
  | vdup32 => 0

/-- The `op` field of a conversion: 00 is from signed integers, 10 to
them. -/
def VcvtOp.code : VcvtOp → BitVec 2
  | f32S32 => 0b00
  | s32F32 => 0b10

/-- The L bit of a single-lane access. -/
def VldstName.load : VldstName → BitVec 1
  | vld => 1
  | vst => 0

/-- The number of registers of a single-lane access, less one. -/
def VldstEmitter.n (f : VldstEmitter) : BitVec 2 :=
  BitVec.ofNat 2 (f.nelem - 1)

/-- The `size` field of an element of so many bits. -/
def laneSize (width : Nat) : BitVec 2 :=
  if width = 8 then 0b00 else if width = 16 then 0b01 else 0b10

/-- The instruction a call asks for. -/
def EncOp.instr : EncOp → A32.Instr
  | bx cc reg => .bx { cond := cc.code, rm := reg }
  | mul cc s rd rm rs =>
      .mul { cond := cc.code, accumulate := 0, s := s, rd := rd, ra := 0,
             rm := rs, rn := rm }
  | mla cc s rd rm rs rn =>
      .mul { cond := cc.code, accumulate := 1, s := s, rd := rd, ra := rn,
             rm := rs, rn := rm }
  | ldm cc p u s w rn regBits =>
      .block { cond := cc.code, p := p, u := u, s := s, w := w, load := 1,
               rn := rn, regs := regBits }
  | stm cc p u s w rn regBits =>
      .block { cond := cc.code, p := p, u := u, s := s, w := w, load := 0,
               rn := rn, regs := regBits }
  | ldrex cc rd rn => .exclusive (.ldrex cc.code rd rn)
  | strex cc rd rm rn => .exclusive (.strex cc.code rd rm rn)
  | vdup size cc q vd rt =>
      .vdup { cond := cc.code, b := size.b, q := q, vd := vd, rt := rt,
              e := size.e }
  | vcvt op q vd vm =>
      .vcvt { op := op.code, size := 0b10, q := q, vd := vd, vm := vm }
  | vldst f _ vd rn rm align =>
      .lane { load := f.name.load, n := f.n, size := laneSize f.type,
              vd := vd, rn := rn, rm := rm, indexAlign := align }

-- ====================================================== what is emitted

/-- The word of an LDM or STM. -/
def blockWord (cc : AgCond) (p u s w l : BitVec 1) (rn : BitVec 4)
    (regBits : BitVec 16) : Word :=
  ldstmWord cc (p.setWidth 32) (u.setWidth 32) (s.setWidth 32)
    (w.setWidth 32) (l.setWidth 32) (rn.setWidth 32) (regBits.setWidth 32)

/-- The opcode of a VDUP. -/
def VdupSize.opc : VdupSize → Word
  | vdup8 => 0x0e800b10#32 ||| 0x00400000#32
  | vdup16 => 0x0e800b10#32 ||| 0x00000020#32
  | vdup32 => 0x0e800b10#32 ||| 0x00000000#32

/-- The opcode of a conversion. -/
def VcvtOp.opc : VcvtOp → Word
  | f32S32 => 0xf3bb0600
  | s32F32 => 0xf3bb0700

/-- The word a call emits. -/
def EncOp.word : EncOp → Word
  | bx cc reg => bxWord cc (reg.setWidth 32)
  | mul cc s rd rm rs =>
      mulWord cc (s.setWidth 32) (rd.setWidth 32) (rm.setWidth 32)
        (rs.setWidth 32)
  | mla cc s rd rm rs rn =>
      mlaWord cc (s.setWidth 32) (rd.setWidth 32) (rm.setWidth 32)
        (rs.setWidth 32) (rn.setWidth 32)
  | ldm cc p u s w rn regBits => blockWord cc p u s w 1 rn regBits
  | stm cc p u s w rn regBits => blockWord cc p u s w 0 rn regBits
  | ldrex cc rd rn => ldrexWord cc (rd.setWidth 32) (rn.setWidth 32)
  | strex cc rd rm rn =>
      strexWord cc (rd.setWidth 32) (rm.setWidth 32) (rn.setWidth 32)
  | vdup size cc q vd rt =>
      vdupWord cc size.opc (q.setWidth 32) (vd.setWidth 32)
        (rt.setWidth 32)
  | vcvt op q vd vm =>
      vcvtWord op.opc (q.setWidth 32) (vd.setWidth 32) (vm.setWidth 32)
  | vldst f _ vd rn rm align =>
      vldst1Word (vd.setWidth 32) (rn.setWidth 32) (rm.setWidth 32)
        (align.setWidth 32) f.opc f.sizeBits

def EncCall.word (c : EncCall) : Word := c.expand.word

theorem EncOp.emit_eq (o : EncOp) (e : Emitter) :
    o.emit e = agEmit4 e o.word := by
  cases o with
  | vdup size cc q vd rt => cases size <;> rfl
  | vcvt op q vd vm => cases op <;> rfl
  | _ => rfl

theorem EncCall.emit_eq (c : EncCall) (e : Emitter) :
    c.emit e = agEmit4 e c.word := by
  cases c with
  | op o => exact o.emit_eq e
  | ldmMode mode cc w rn regBits => cases mode <;> rfl
  | stmMode mode cc w rn regBits => cases mode <;> rfl
  | push cc regBits => rfl
  | pop cc regBits => rfl

-- ============================================================== decoding

/-- The opcode of a VDUP holds its size bits. -/
theorem VdupSize.opc_eq (size : VdupSize) :
    size.opc = 0x0e800b10#32 ||| (size.b.setWidth 32 <<< 22)
      ||| (size.e.setWidth 32 <<< 5) := by
  cases size <;> decide

/-- The opcode of a conversion holds its direction. -/
theorem VcvtOp.opc_eq (op : VcvtOp) :
    op.opc = 0xf3bb0600#32 ||| (op.code.setWidth 32 <<< 7) := by
  cases op <;> decide

/-- The rows of the table hold what their names say. -/
theorem vldstEmitters_eq : ∀ f ∈ vldstEmitters,
    f.opc = 0xf4800000#32 ||| (f.name.load.setWidth 32 <<< 21)
        ||| (f.n.setWidth 32 <<< 8)
      ∧ f.sizeBits = (laneSize f.type).setWidth 32
      ∧ laneSize f.type ≠ 0b11#2 := by
  decide

/-- `ag_emit_ldstm`, in the widths of its fields. -/
theorem decode_blockWord (cc : AgCond) (p u s w l : BitVec 1)
    (rn : BitVec 4) (regBits : BitVec 16) :
    A32.decode (blockWord cc p u s w l rn regBits)
      = some (.block { cond := cc.code, p := p, u := u, s := s, w := w,
                       load := l, rn := rn, regs := regBits }) := by
  have hblock := decode_ldstm cc p u s w l rn regBits
  have hmul : A32.decodeMul (blockWord cc p u s w l rn regBits) = none := by
    simp [A32.decodeMul, blockWord, ldstmWord, AgCond.val]
  unfold A32.decode
  rw [hmul]
  unfold blockWord
  rw [hblock]
  rfl

/-- What a call's word decodes to. -/
theorem EncOp.decode_word (o : EncOp) :
    A32.decode o.word = some o.instr := by
  cases o with
  | bx cc reg =>
      have hbx := decode_bx cc reg
      simp [word, instr, A32.decode, A32.decodeMul, A32.decodeBlock,
        A32.decodeExclusive, A32.decodeVdup, A32.decodeVcvt,
        A32.decodeLane, bxWord, AgCond.val]
      exact hbx
  | mul cc s rd rm rs =>
      have hcond := cc.code_ne
      simp [word, instr, A32.decode, A32.decodeMul, mulWord, AgCond.val,
        hcond]
  | mla cc s rd rm rs rn =>
      have hcond := cc.code_ne
      simp [word, instr, A32.decode, A32.decodeMul, mlaWord, AgCond.val,
        hcond]
  | ldm cc p u s w rn regBits => exact decode_blockWord cc p u s w 1 rn regBits
  | stm cc p u s w rn regBits => exact decode_blockWord cc p u s w 0 rn regBits
  | ldrex cc rd rn =>
      have hcond := cc.code_ne
      simp [word, instr, A32.decode, A32.decodeMul, A32.decodeBlock,
        A32.decodeExclusive, ldrexWord, AgCond.val, hcond]
  | strex cc rd rm rn =>
      have hcond := cc.code_ne
      simp [word, instr, A32.decode, A32.decodeMul, A32.decodeBlock,
        A32.decodeExclusive, strexWord, AgCond.val, hcond]
  | vdup size cc q vd rt =>
      have hcond := cc.code_ne
      have hjoin := reg_join vd
      simp only [word, vdupWord, size.opc_eq, reg_low, reg_high]
      simp [instr, A32.decode, A32.decodeMul, A32.decodeBlock,
        A32.decodeExclusive, A32.decodeVdup, AgCond.val, hcond, hjoin]
  | vcvt op q vd vm =>
      have hjoin := reg_join vd
      have hjoin' := reg_join vm
      simp only [word, vcvtWord, op.opc_eq, reg_low, reg_high]
      simp [instr, A32.decode, A32.decodeMul, A32.decodeBlock,
        A32.decodeExclusive, A32.decodeVdup, A32.decodeVcvt, hjoin, hjoin']
  | vldst f hf vd rn rm align =>
      obtain ⟨hopc, hsize, hne⟩ := vldstEmitters_eq f hf
      have hjoin := reg_join vd
      simp only [word, vldst1Word, hopc, hsize, reg_low, reg_high]
      simp [instr, A32.decode, A32.decodeMul, A32.decodeBlock,
        A32.decodeExclusive, A32.decodeVdup, A32.decodeVcvt,
        A32.decodeLane, hjoin, hne]

-- ============================================================ the parts

/-- What an LDM or STM is put together from. -/
def blockParts (cc : AgCond) (p u s w l : BitVec 1) (rn : BitVec 4)
    (regBits : BitVec 16) : List Word :=
  [cc.code.setWidth 32 <<< 28, 0x08000000#32, p.setWidth 32 <<< 24,
    u.setWidth 32 <<< 23, s.setWidth 32 <<< 22, w.setWidth 32 <<< 21,
    l.setWidth 32 <<< 20, rn.setWidth 32 <<< 16, regBits.setWidth 32]

/-- What a word is put together from: the opcode, and each operand in
its place. -/
def EncOp.parts : EncOp → List Word
  | bx cc reg =>
      [cc.code.setWidth 32 <<< 28, 0x012fff10#32, reg.setWidth 32]
  | mul cc s rd rm rs =>
      [cc.code.setWidth 32 <<< 28, 0x00000090#32, s.setWidth 32 <<< 20,
        rd.setWidth 32 <<< 16, rs.setWidth 32 <<< 8, rm.setWidth 32]
  | mla cc s rd rm rs rn =>
      [cc.code.setWidth 32 <<< 28, 0x00200090#32, s.setWidth 32 <<< 20,
        rd.setWidth 32 <<< 16, rn.setWidth 32 <<< 12, rs.setWidth 32 <<< 8,
        rm.setWidth 32]
  | ldm cc p u s w rn regBits => blockParts cc p u s w 1 rn regBits
  | stm cc p u s w rn regBits => blockParts cc p u s w 0 rn regBits
  | ldrex cc rd rn =>
      [0x01900f9f#32, cc.code.setWidth 32 <<< 28, rn.setWidth 32 <<< 16,
        rd.setWidth 32 <<< 12]
  | strex cc rd rm rn =>
      [0x01800f90#32, cc.code.setWidth 32 <<< 28, rn.setWidth 32 <<< 16,
        rd.setWidth 32 <<< 12, rm.setWidth 32]
  | vdup size cc q vd rt =>
      [cc.code.setWidth 32 <<< 28, size.opc, q.setWidth 32 <<< 21,
        (bits vd 0 4).setWidth 32 <<< 16, rt.setWidth 32 <<< 12,
        (bits vd 4 1).setWidth 32 <<< 7]
  | vcvt op q vd vm =>
      [op.opc, (bits vd 4 1).setWidth 32 <<< 22,
        (bits vd 0 4).setWidth 32 <<< 12, q.setWidth 32 <<< 6,
        (bits vm 4 1).setWidth 32 <<< 5, (bits vm 0 4).setWidth 32]
  | vldst f _ vd rn rm align =>
      [f.opc, (bits vd 4 1).setWidth 32 <<< 22, rn.setWidth 32 <<< 16,
        (bits vd 0 4).setWidth 32 <<< 12,
        (laneSize f.type).setWidth 32 <<< 10, align.setWidth 32 <<< 4,
        rm.setWidth 32]

/-- A word is its parts together. -/
theorem EncOp.word_eq_parts (o : EncOp) :
    o.word = o.parts.foldl (· ||| ·) 0 := by
  cases o with
  | vdup size cc q vd rt =>
      simp [word, parts, vdupWord, reg_low, reg_high, AgCond.val]
  | vcvt op q vd vm => simp [word, parts, vcvtWord, reg_low, reg_high]
  | vldst f hf vd rn rm align =>
      obtain ⟨_, hsize, _⟩ := vldstEmitters_eq f hf
      simp [word, parts, vldst1Word, reg_low, reg_high, hsize]
  | _ =>
      simp [word, parts, bxWord, mulWord, mlaWord, blockWord, blockParts,
        ldstmWord, ldrexWord, strexWord, AgCond.val]

/-- No two parts share a bit. -/
theorem EncOp.parts_apart (o : EncOp) :
    o.parts.Pairwise fun a b => a &&& b = 0 := by
  cases o with
  | vdup size cc q vd rt =>
      simp [parts, size.opc_eq, and_shl_eq_zero, shl_and_eq_zero]
  | vcvt op q vd vm =>
      simp [parts, op.opc_eq, and_shl_eq_zero, and_setWidth_eq_zero]
  | vldst f hf vd rn rm align =>
      obtain ⟨hopc, _, _⟩ := vldstEmitters_eq f hf
      simp [parts, hopc, and_shl_eq_zero, and_setWidth_eq_zero]
  | _ =>
      simp [parts, blockParts, and_shl_eq_zero, shl_and_eq_zero,
        and_setWidth_eq_zero]

-- ============================================================ collisions

theorem VdupSize.eq_of_bits {a b : VdupSize} (hb : a.b = b.b)
    (he : a.e = b.e) : a = b := by
  revert hb he
  cases a <;> cases b <;> decide

theorem VcvtOp.eq_of_code {a b : VcvtOp} (h : a.code = b.code) : a = b := by
  revert h
  cases a <;> cases b <;> decide

/-- The names of the table are told apart by the fields. -/
theorem vldstEmitters_inj : ∀ f ∈ vldstEmitters, ∀ g ∈ vldstEmitters,
    f.name.load = g.name.load → f.n = g.n →
    laneSize f.type = laneSize g.type → f = g := by
  decide

/-- A call can be read back from the instruction it asks for. -/
theorem EncOp.instr_inj {o o' : EncOp} (h : o.instr = o'.instr) :
    o = o' := by
  cases o with
  | bx cc reg =>
      cases o' <;> simp [instr] at h
      simp [AgCond.code_inj h.1, h.2]
  | mul cc s rd rm rs =>
      cases o' <;> simp [instr] at h
      obtain ⟨hcc, hs, hrd, hrs, hrm⟩ := h
      simp [AgCond.code_inj hcc, hs, hrd, hrs, hrm]
  | mla cc s rd rm rs rn =>
      cases o' <;> simp [instr] at h
      obtain ⟨hcc, hs, hrd, hrn, hrs, hrm⟩ := h
      simp [AgCond.code_inj hcc, hs, hrd, hrs, hrm, hrn]
  | ldm cc p u s w rn regBits =>
      cases o' <;> simp [instr] at h
      obtain ⟨hcc, hp, hu, hs, hw, hrn, hregs⟩ := h
      simp [AgCond.code_inj hcc, hp, hu, hs, hw, hrn, hregs]
  | stm cc p u s w rn regBits =>
      cases o' <;> simp [instr] at h
      obtain ⟨hcc, hp, hu, hs, hw, hrn, hregs⟩ := h
      simp [AgCond.code_inj hcc, hp, hu, hs, hw, hrn, hregs]
  | ldrex cc rd rn =>
      cases o' <;> simp [instr] at h
      obtain ⟨hcc, hrd, hrn⟩ := h
      simp [AgCond.code_inj hcc, hrd, hrn]
  | strex cc rd rm rn =>
      cases o' <;> simp [instr] at h
      obtain ⟨hcc, hrd, hrm, hrn⟩ := h
      simp [AgCond.code_inj hcc, hrd, hrm, hrn]
  | vdup size cc q vd rt =>
      cases o' <;> simp [instr] at h
      obtain ⟨hcc, hb, hq, hvd, hrt, he⟩ := h
      simp [AgCond.code_inj hcc, VdupSize.eq_of_bits hb he, hq, hvd, hrt]
  | vcvt op q vd vm =>
      cases o' <;> simp [instr] at h
      obtain ⟨hop, hq, hvd, hvm⟩ := h
      simp [VcvtOp.eq_of_code hop, hq, hvd, hvm]
  | vldst f hf vd rn rm align =>
      cases o' with
      | vldst g hg vd' rn' rm' align' =>
          simp only [instr, A32.Instr.lane.injEq, A32.Lane.mk.injEq] at h
          obtain ⟨hload, hn, hsize, hvd, hrn, hrm, halign⟩ := h
          have hsame := vldstEmitters_inj f hf g hg hload hn hsize
          subst hsame hvd hrn hrm halign
          rfl
      | _ => simp [instr] at h

-- =============================================================== results

/-- The round trip of the encoders. Every call emits one word, which
decodes to the instruction the call asks for, with its operation, element
size and operands. Its parts share no bit. And no other call emits the
word, up to what abbreviates what. -/
theorem encoders_roundTrip (c : EncCall) :
    (∀ e, c.emit e = agEmit4 e c.word)
      ∧ A32.decode c.word = some c.expand.instr
      ∧ (c.word = c.expand.parts.foldl (· ||| ·) 0
        ∧ c.expand.parts.Pairwise fun a b => a &&& b = 0)
      ∧ ∀ c' : EncCall, c'.word = c.word → c'.expand = c.expand := by
  refine ⟨c.emit_eq, c.expand.decode_word,
    ⟨c.expand.word_eq_parts, c.expand.parts_apart⟩, ?_⟩
  intro c' hword
  have hdec := c'.expand.decode_word
  rw [show c'.expand.word = c.expand.word from hword,
    c.expand.decode_word] at hdec
  exact (EncOp.instr_inj (Option.some.inj hdec)).symm

end UdeBench.Ag
