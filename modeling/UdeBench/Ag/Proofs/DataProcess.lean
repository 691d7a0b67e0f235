/-
The data processing emitters against the prototypes of ag/ag_gen.h and
the encoding diagrams.

A caller has the prototypes: `ag_emit_<op>_reg(e, cc, s, rd, rm, rn,
shift)`, and `ag_emit_cmp_reg(e, cc, rm, rn, shift)` for the two
comparisons. `DATA_PROCESS` defines the fourteen others with the operands
in the order `rn, rm`, so what a caller passes as the shifted operand
becomes the first one. The comparisons are written by hand and keep to
the prototype, and the immediate forms have one operand: `dataProcess_iff`
says that this is all there is to it.
-/
import UdeBench.Ag.Encoders
import UdeBench.Ag.Proofs.Decode

namespace UdeBench.Ag

open A32 (Word)
open Bits

-- ================================================================ calls

/-- The opcodes without a destination and an S argument. -/
def AgDataProcessOpcode.isCompare : AgDataProcessOpcode → Bool
  | cmp => true
  | cmn => true
  | _ => false

/-- The shifts a program can ask for. -/
inductive AgShiftArg
  | lslAm (am : BitVec 5) | lsrAm (am : BitVec 5) | asrAm (am : BitVec 5)
  | lslReg (r : BitVec 4) | lsrReg (r : BitVec 4) | asrReg (r : BitVec 4)
deriving DecidableEq, Repr

/-- The `shift` argument. -/
def AgShiftArg.val : AgShiftArg → Word
  | lslAm am => agLslAm (am.setWidth 32)
  | lsrAm am => agLsrAm (am.setWidth 32)
  | asrAm am => agAsrAm (am.setWidth 32)
  | lslReg r => agLslReg (r.setWidth 32)
  | lsrReg r => agLsrReg (r.setWidth 32)
  | asrReg r => agAsrReg (r.setWidth 32)

/-- The fields that are meant, an amount as it is encoded. -/
def AgShiftArg.field : AgShiftArg → A32.DpShift
  | lslAm am => .imm 0b00 am
  | lsrAm am => .imm 0b01 am
  | asrAm am => .imm 0b10 am
  | lslReg r => .reg 0b00 r
  | lsrReg r => .reg 0b01 r
  | asrReg r => .reg 0b10 r

/-- What every data processing call has: S is set in the test opcodes,
and a comparison has no destination. -/
structure DpHead where
  op : AgDataProcessOpcode
  cc : AgCond
  s : BitVec 1
  rd : BitVec 4
  hs : op.isTest = true → s = 1#1
  hrd : op.isCompare = true → rd = 0#4
deriving DecidableEq

/-- A call of a register form, by the names of its prototype: `rm` the
shifted operand, `rn` the first one. -/
structure DpRegCall extends DpHead where
  rm : BitVec 4
  rn : BitVec 4
  shift : AgShiftArg
deriving DecidableEq

/-- A call of an immediate form, with any `int`. -/
structure DpImmCall extends DpHead where
  rn : BitVec 4
  imm : Word
deriving DecidableEq

/-- The emitter called, with the arguments in the order of the
prototype. -/
def DpRegCall.emit (c : DpRegCall) (e : Emitter) : Option Emitter :=
  let s := c.s.setWidth 32
  let rd := c.rd.setWidth 32
  let rm := c.rm.setWidth 32
  let rn := c.rn.setWidth 32
  match c.op with
  | .and => agEmitAndReg e c.cc s rd rm rn c.shift.val
  | .eor => agEmitEorReg e c.cc s rd rm rn c.shift.val
  | .sub => agEmitSubReg e c.cc s rd rm rn c.shift.val
  | .rsb => agEmitRsbReg e c.cc s rd rm rn c.shift.val
  | .add => agEmitAddReg e c.cc s rd rm rn c.shift.val
  | .adc => agEmitAdcReg e c.cc s rd rm rn c.shift.val
  | .sbc => agEmitSbcReg e c.cc s rd rm rn c.shift.val
  | .rsc => agEmitRscReg e c.cc s rd rm rn c.shift.val
  | .tst => agEmitTstReg e c.cc s rd rm rn c.shift.val
  | .teq => agEmitTeqReg e c.cc s rd rm rn c.shift.val
  | .cmp => agEmitCmpReg e c.cc rm rn c.shift.val
  | .cmn => agEmitCmnReg e c.cc rm rn c.shift.val
  | .orr => agEmitOrrReg e c.cc s rd rm rn c.shift.val
  | .mov => agEmitMovReg e c.cc s rd rm rn c.shift.val
  | .bic => agEmitBicReg e c.cc s rd rm rn c.shift.val
  | .mvn => agEmitMvnReg e c.cc s rd rm rn c.shift.val

def DpImmCall.emit (c : DpImmCall) (e : Emitter) : Option (Emitter × Int) :=
  let s := c.s.setWidth 32
  let rd := c.rd.setWidth 32
  let rn := c.rn.setWidth 32
  match c.op with
  | .and => agEmitAndImm e c.cc s rd rn c.imm
  | .eor => agEmitEorImm e c.cc s rd rn c.imm
  | .sub => agEmitSubImm e c.cc s rd rn c.imm
  | .rsb => agEmitRsbImm e c.cc s rd rn c.imm
  | .add => agEmitAddImm e c.cc s rd rn c.imm
  | .adc => agEmitAdcImm e c.cc s rd rn c.imm
  | .sbc => agEmitSbcImm e c.cc s rd rn c.imm
  | .rsc => agEmitRscImm e c.cc s rd rn c.imm
  | .tst => agEmitTstImm e c.cc s rd rn c.imm
  | .teq => agEmitTeqImm e c.cc s rd rn c.imm
  | .cmp => agEmitCmpImm e c.cc rn c.imm
  | .cmn => agEmitCmnImm e c.cc rn c.imm
  | .orr => agEmitOrrImm e c.cc s rd rn c.imm
  | .mov => agEmitMovImm e c.cc s rd rn c.imm
  | .bic => agEmitBicImm e c.cc s rd rn c.imm
  | .mvn => agEmitMvnImm e c.cc s rd rn c.imm

-- ========================================================== what is emitted

/-- The register that goes into the field of the first operand, and the
one that is shifted. -/
def DpRegCall.first (c : DpRegCall) : BitVec 4 :=
  if c.op.isCompare then c.rn else c.rm

def DpRegCall.second (c : DpRegCall) : BitVec 4 :=
  if c.op.isCompare then c.rm else c.rn

/-- The word of a register form. -/
def DpRegCall.word (c : DpRegCall) : Word :=
  dataProcessRegWord c.cc c.op (c.s.setWidth 32) (c.rd.setWidth 32)
    (c.first.setWidth 32) (c.second.setWidth 32) c.shift.val

/-- The word of an immediate form whose operand fits. -/
def DpImmCall.word (c : DpImmCall) : Word :=
  dataProcessImmWord c.cc c.op (c.s.setWidth 32) (c.rd.setWidth 32)
    (c.rn.setWidth 32) c.imm

theorem DpRegCall.emit_eq (c : DpRegCall) (e : Emitter) :
    c.emit e = agEmit4 e c.word := by
  obtain ⟨⟨op, cc, s, rd, hs, hrd⟩, rm, rn, shift⟩ := c
  by_cases hcmp : op.isCompare = true
  · -- the two comparisons fix S and the destination
    cases op with
    | cmp =>
        cases hs rfl
        cases hrd rfl
        rfl
    | cmn =>
        cases hs rfl
        cases hrd rfl
        rfl
    | _ => cases hcmp
  · cases op with
    | cmp => exact absurd rfl hcmp
    | cmn => exact absurd rfl hcmp
    | _ => rfl

theorem DpImmCall.emit_eq (c : DpImmCall) (e : Emitter) :
    c.emit e = agEmitDataProcessImm e c.cc c.op (c.s.setWidth 32)
      (c.rd.setWidth 32) (c.rn.setWidth 32) c.imm := by
  obtain ⟨⟨op, cc, s, rd, hs, hrd⟩, rn, imm⟩ := c
  by_cases hcmp : op.isCompare = true
  · cases op with
    | cmp =>
        cases hs rfl
        cases hrd rfl
        rfl
    | cmn =>
        cases hs rfl
        cases hrd rfl
        rfl
    | _ => cases hcmp
  · cases op with
    | cmp => exact absurd rfl hcmp
    | cmn => exact absurd rfl hcmp
    | _ => rfl

-- ============================================================== decoding

/-- The bits of a shift argument in their place. -/
theorem AgShiftArg.val_shl (x : AgShiftArg) :
    x.val <<< 4 = match x.field with
      | .imm type am => (am.setWidth 32 <<< 7) ||| (type.setWidth 32 <<< 5)
      | .reg type r => (r.setWidth 32 <<< 8) ||| (type.setWidth 32 <<< 5)
          ||| ((1#1).setWidth 32 <<< 4) := by
  have hreg : ∀ (r : BitVec 4) (type : BitVec 2),
      agShiftReg (r.setWidth 32) (type.setWidth 32) <<< 4
        = (r.setWidth 32 <<< 8) ||| (type.setWidth 32 <<< 5)
          ||| ((1#1).setWidth 32 <<< 4) := by
    intro r type
    unfold agShiftReg
    rw [BitVec.shiftLeft_or_distrib, BitVec.shiftLeft_or_distrib,
      ← BitVec.shiftLeft_add, ← BitVec.shiftLeft_add]
    rfl
  cases x with
  | lslAm am => exact shift_field am 0b00
  | lsrAm am => exact shift_field am 0b01
  | asrAm am => exact shift_field am 0b10
  | lslReg r => exact hreg r 0b00
  | lsrReg r => exact hreg r 0b01
  | asrReg r => exact hreg r 0b10

/-- `ag_emit_data_process_reg`, with operands in range. -/
theorem decode_dataProcessReg (cc : AgCond) (opc : AgDataProcessOpcode)
    (s : BitVec 1) (rd rn rm : BitVec 4) (shift : AgShiftArg)
    (hs : opc.isTest = true → s = 1#1) :
    A32.decodeDpReg (dataProcessRegWord cc opc (s.setWidth 32)
        (rd.setWidth 32) (rn.setWidth 32) (rm.setWidth 32) shift.val)
      = some { cond := cc.code, op := opc.code, s := s, rn := rn, rd := rd,
               rm := rm, shift := shift.field } := by
  have hcond := cc.code_ne
  have htest := bits_opcode opc
  have hopc : bits opc.code 2 2 = 0b10#2 → ¬ s = 0#1 := by
    intro h
    rw [hs (opc.isTest_iff.mpr h)]
    decide
  have hval := shift.val_shl
  unfold A32.decodeDpReg dataProcessRegWord
  rw [hval]
  cases hfield : shift.field with
  | imm type am =>
      simp [AgCond.val, AgDataProcessOpcode.val, hcond, htest]
      exact hopc
  | reg type r =>
      simp [AgCond.val, AgDataProcessOpcode.val, hcond, htest]
      exact hopc

/-- The range check is that of a byte. -/
theorem imm_rejected_iff (imm : Word) :
    imm &&& 0xffffff00#32 ≠ 0#32 ↔ ¬ (0 ≤ imm.toInt ∧ imm.toInt ≤ 255) := by
  have hint := BitVec.toInt_eq_toNat_cond imm
  have hlt := imm.isLt
  have hmask : imm &&& 0xffffff00#32 = 0#32 ↔ imm.toNat < 256 := by
    have hsub : imm &&& 0xffffff00#32
        = imm &&& ~~~((1#32 <<< 8) - 1) := rfl
    rw [hsub, ← BitVec.toNat_inj, and_alignMask imm (by decide)]
    simp only [BitVec.toNat_ofNat]
    omega
  rw [Ne, hmask]
  omega

-- ================================================================ results

/-- A word of a register form decodes to the call: opcode, condition, S,
destination, and the operands under the prototype's names. -/
def DpRegCall.DecodesFrom (c : DpRegCall) (w : Word) : Prop :=
  A32.decodeDpReg w = some
    { cond := c.cc.code, op := c.op.code, s := c.s, rn := c.rn,
      rd := c.rd, rm := c.rm, shift := c.shift.field }

instance (c : DpRegCall) (w : Word) : Decidable (c.DecodesFrom w) :=
  inferInstanceAs (Decidable (_ = _))

/-- A word of an immediate form does. -/
def DpImmCall.DecodesFrom (c : DpImmCall) (w : Word) : Prop :=
  ∃ d, A32.decodeDpImm w = some d ∧ d.cond = c.cc.code ∧ d.op = c.op.code
    ∧ d.s = c.s ∧ d.rn = c.rn ∧ d.rd = c.rd
    ∧ A32.expandImm d.imm12 = c.imm

/-- A data processing call. -/
inductive DpCall
  | reg (c : DpRegCall)
  | imm (c : DpImmCall)

/-- The round trip of a call. A register form emits a word that decodes
to the call. An immediate form rejects what is not in 0 to 255, with a
negative result and the emitter as it was; of the rest it emits a word
that decodes to the call. -/
def DpCall.RoundTrip : DpCall → Prop
  | reg c => (∀ e, c.emit e = agEmit4 e c.word) ∧ c.DecodesFrom c.word
  | imm c =>
      (¬ (0 ≤ c.imm.toInt ∧ c.imm.toInt ≤ 255) →
        ∀ e, ∃ r < 0, c.emit e = some (e, r))
      ∧ (0 ≤ c.imm.toInt ∧ c.imm.toInt ≤ 255 →
        (∀ e, c.emit e = (agEmit4 e c.word).map (·, 0))
          ∧ c.DecodesFrom c.word)

/-- The calls whose operands end up where the prototype says. -/
def DpCall.InOrder : DpCall → Prop
  | reg c => c.op = .cmp ∨ c.op = .cmn ∨ c.rm = c.rn
  | imm _ => True

/-- What a register form's word decodes to. -/
theorem DpRegCall.decode_word (c : DpRegCall) :
    A32.decodeDpReg c.word = some
      { cond := c.cc.code, op := c.op.code, s := c.s, rn := c.first,
        rd := c.rd, rm := c.second, shift := c.shift.field } :=
  decode_dataProcessReg c.cc c.op c.s c.rd c.first c.second c.shift c.hs

theorem AgDataProcessOpcode.isCompare_iff (op : AgDataProcessOpcode) :
    op.isCompare = true ↔ op = .cmp ∨ op = .cmn := by
  cases op <;> decide

theorem DpRegCall.decodesFrom_iff (c : DpRegCall) :
    c.DecodesFrom c.word ↔ c.op = .cmp ∨ c.op = .cmn ∨ c.rm = c.rn := by
  have hcmp := c.op.isCompare_iff
  unfold DecodesFrom
  rw [c.decode_word, ← or_assoc, ← hcmp]
  simp only [Option.some.injEq, A32.DpReg.mk.injEq, true_and, and_true]
  unfold first second
  by_cases h : c.op.isCompare = true
  · rw [if_pos h, if_pos h]
    exact ⟨fun _ => .inl h, fun _ => ⟨rfl, rfl⟩⟩
  · rw [if_neg h, if_neg h]
    exact ⟨fun hsame => .inr hsame.1,
      fun hor => ⟨hor.resolve_left h, (hor.resolve_left h).symm⟩⟩

/-- An immediate form always makes the round trip. -/
theorem DpImmCall.roundTrip (c : DpImmCall) : (DpCall.imm c).RoundTrip := by
  have hreject := imm_rejected_iff c.imm
  constructor
  · intro hout e
    refine ⟨-1, by decide, ?_⟩
    rw [c.emit_eq]
    unfold agEmitDataProcessImm
    rw [if_pos (hreject.mpr hout)]
  · intro hin
    have hfits : ¬ (c.imm &&& 0xffffff00#32 ≠ 0#32) :=
      fun h => hreject.mp h hin
    have hlt : c.imm.toNat < 256 := by
      have hint := BitVec.toInt_eq_toNat_cond c.imm
      have hword := c.imm.isLt
      omega
    have hbyte := byte_of_lt hlt
    constructor
    · intro e
      rw [c.emit_eq]
      unfold agEmitDataProcessImm word
      rw [if_neg hfits]
      cases agEmit4 e (dataProcessImmWord c.cc c.op (c.s.setWidth 32)
        (c.rd.setWidth 32) (c.rn.setWidth 32) c.imm) <;> rfl
    · have hdec := decode_dataProcessImm c.cc c.op c.s c.rd c.rn
        (c.imm.setWidth 8) c.hs
      rw [hbyte] at hdec
      refine ⟨_, hdec, rfl, rfl, rfl, rfl, rfl, ?_⟩
      rw [expandImm_byte, hbyte]

/-- The round trip of the data processing emitters: it holds of a call
exactly if the call is of an immediate form, of a comparison, or passes
one register twice. -/
theorem dataProcess_iff (c : DpCall) : c.RoundTrip ↔ c.InOrder := by
  cases c with
  | reg c =>
      have hiff := c.decodesFrom_iff
      exact ⟨fun h => hiff.mp h.2, fun h => ⟨c.emit_eq, hiff.mpr h⟩⟩
  | imm c => exact ⟨fun _ => trivial, fun _ => c.roundTrip⟩

/-- By the prototype, `sub r0, r2, r1, lsl #4`. -/
def subShifted : DpRegCall :=
  ⟨⟨.sub, .condAl, 0, 0, by decide, by decide⟩, 1, 2, .lslAm 4⟩

/-- What is emitted is `sub r0, r1, r2, lsl #4`. -/
theorem subShifted_swapped :
    subShifted.word = 0xe0410202#32 ∧ (A32.decodeDpReg subShifted.word).map
        (fun d => (d.rn, d.rm)) = some (1, 2)
      ∧ ¬ (DpCall.reg subShifted).RoundTrip := by
  refine ⟨by decide, by decide, fun h => ?_⟩
  exact absurd h.2 (by decide)

end UdeBench.Ag
