/-
The load/store emitters against the encoding diagram: which calls decode
to what they ask for.

The immediate opcodes carry P themselves and the register opcodes do
not, so what a mode constant makes of P and W depends on the form:

                       immediate form      register form
    AG_OFFSET_ADDR     P=1 W=0             P=1 W=0
    AG_PRE_INCR        P=1 W=1             P=1 W=1
    AG_POST_INCR       P=1 W=1             P=0 W=1

Post-indexing is P=0, W=0, which no form of `AG_POST_INCR` encodes: the
immediate forms index before, and the register forms are the
unprivileged accesses. `ldrstr_iff` says that nothing else is wrong.
-/
import UdeBench.Ag.Proofs.Decode

namespace UdeBench.Ag

open A32 (Word)
open Bits

-- ================================================================ calls

/-- The offset operand of a call, in the ranges the forms are for: an
immediate of magnitude at most 4095, or a register with a shift field of 0
to 31 (`AG_LSR_AM(0)` is the field 0, which shifts by 32), added or
subtracted. -/
inductive LdrstrArg
  | imm (x : Int) (hx : x.natAbs ≤ 4095)
  | reg (rm : BitVec 4) (shift : AgShift) (am : BitVec 5) (add : Bool)
deriving DecidableEq

/-- A call of one of the eight load/store emitters. -/
structure LdrstrCall where
  op : LdrstrOp
  cc : AgCond
  rt : BitVec 4
  rn : BitVec 4
  arg : LdrstrArg
  incr : AgIncr
deriving DecidableEq

/-- The emitter called. -/
def LdrstrCall.emit (c : LdrstrCall) (e : Emitter) : Option Emitter :=
  match c.arg with
  | .imm x _ =>
      c.op.emitImm e c.cc (c.rt.setWidth 32) (c.rn.setWidth 32)
        (BitVec.ofInt 32 x) c.incr.val
  | .reg rm shift am add =>
      c.op.emitReg e c.cc (c.rt.setWidth 32) (c.rn.setWidth 32)
        (rm.setWidth 32) (shift.val (am.setWidth 32))
        (if add then 1 else 0) c.incr.val

/-- The word it emits. -/
def LdrstrCall.word (c : LdrstrCall) : Word :=
  match c.arg with
  | .imm x _ =>
      ldrstrImmWord c.op.immOpc c.cc (c.rt.setWidth 32) (c.rn.setWidth 32)
        (BitVec.ofInt 32 x) c.incr.val
  | .reg rm shift am add =>
      ldrstrRegWord c.op.regOpc c.cc (c.rt.setWidth 32)
        (c.rn.setWidth 32) (rm.setWidth 32) (shift.val (am.setWidth 32))
        (if add then 1 else 0) c.incr.val

theorem LdrstrCall.emit_eq (c : LdrstrCall) (e : Emitter) :
    c.emit e = agEmit4 e c.word := by
  obtain ⟨op, cc, rt, rn, arg, incr⟩ := c
  cases arg <;> cases op <;> rfl

/-- Whether the call is of an immediate form. -/
def LdrstrCall.isImm (c : LdrstrCall) : Bool :=
  match c.arg with
  | .imm _ _ => true
  | .reg .. => false

-- ========================================================== what is meant

/-- The shift type of the diagram. -/
def AgShift.type : AgShift → BitVec 2
  | lslAm => 0b00
  | lsrAm => 0b01
  | asrAm => 0b10

/-- The addressing mode a mode constant stands for. -/
def AgIncr.mode : AgIncr → A32.AddrMode
  | offsetAddr => .offset
  | preIncr => .preIndexed
  | postIncr => .postIndexed

/-- A decoded offset is the one asked for: the signed immediate, or the
register with the shift operand and the sign given. -/
def LdrstrArg.Is : LdrstrArg → A32.LsOffset → Prop
  | imm x _, .imm add imm12 => A32.immOffset add imm12 = x
  | reg rm shift am add, .reg add' rm' type imm5 =>
      rm' = rm ∧ type = shift.type ∧ imm5 = am
        ∧ add' = BitVec.ofBool add
  | _, _ => False

/-- A word decodes to the call: its operation, condition, registers,
offset and addressing mode. -/
def LdrstrCall.DecodesFrom (c : LdrstrCall) (w : Word) : Prop :=
  ∃ d, A32.decodeLoadStore w = some d ∧ d.load = c.op.load
    ∧ d.byte = c.op.byte ∧ d.cond = c.cc.code ∧ d.rt = c.rt
    ∧ d.rn = c.rn ∧ c.arg.Is d.offset ∧ d.mode = c.incr.mode

-- ======================================================= what is encoded

/-- P of a mode constant. -/
def AgIncr.p : AgIncr → BitVec 1
  | offsetAddr => 1
  | preIncr => 1
  | postIncr => 0

/-- W of a mode constant. -/
def AgIncr.w : AgIncr → BitVec 1
  | offsetAddr => 0
  | preIncr => 1
  | postIncr => 1

/-- A mode constant holds P and W. -/
theorem AgIncr.val_eq (m : AgIncr) :
    m.val = (m.p.setWidth 32 <<< 24) ||| (m.w.setWidth 32 <<< 21) := by
  cases m <;> decide

/-- A shift operand holds its amount and type. -/
theorem AgShift.val_eq (s : AgShift) (am : Word) :
    s.val am = agShiftAmount am (s.type.setWidth 32) := by
  cases s <;> rfl

/-- The addressing mode a mode constant encodes, in an immediate form or
in a register form. -/
def AgIncr.encoded (isImm : Bool) (m : AgIncr) : A32.AddrMode :=
  A32.addrMode (if isImm then 1 else m.p) m.w

/-- Post-indexing is the one mode that is not encoded. -/
theorem AgIncr.encoded_eq_iff (isImm : Bool) (m : AgIncr) :
    m.encoded isImm = m.mode ↔ m ≠ .postIncr := by
  cases isImm <;> cases m <;> decide

/-- The two writeback modes of an immediate form are encoded alike, and
no other two modes are. -/
theorem AgIncr.eq_of_encoded {isImm : Bool} {m m' : AgIncr}
    (h : m.encoded isImm = m'.encoded isImm)
    (hm : ¬ (isImm = true ∧ m ≠ .offsetAddr)) : m' = m := by
  revert h hm
  cases isImm <;> cases m <;> cases m' <;> decide

/-- Operations are told apart by L and B. -/
theorem LdrstrOp.eq_of_bits {op op' : LdrstrOp}
    (hload : op.load = op'.load) (hbyte : op.byte = op'.byte) :
    op = op' := by
  revert hload hbyte
  cases op <;> cases op' <;> decide

/-- The offset field a call encodes. -/
def LdrstrArg.field : LdrstrArg → A32.LsOffset
  | imm x _ => .imm (offsetU (BitVec.ofInt 32 x))
      (bits (magnitude13 (BitVec.ofInt 32 x)) 0 12)
  | reg rm shift am add => .reg (BitVec.ofBool add) rm shift.type am

/-- An immediate in range is its own value. -/
theorem toInt_ofInt_of_le {x : Int} (hx : x.natAbs ≤ 4095) :
    (BitVec.ofInt 32 x).toInt = x := by
  rw [BitVec.toInt_ofInt]
  exact Int.bmod_eq_of_le (by omega) (by omega)

/-- The magnitude of an immediate in range. -/
theorem magnitude13_of_le {x : Int} (hx : x.natAbs ≤ 4095) :
    (magnitude13 (BitVec.ofInt 32 x)).toNat = x.natAbs := by
  rw [magnitude13_toNat, toInt_ofInt_of_le hx]
  omega

/-- What every call's word decodes to. -/
theorem LdrstrCall.decode_word (c : LdrstrCall) :
    A32.decodeLoadStore c.word
      = some { cond := c.cc.code, load := c.op.load, byte := c.op.byte,
               mode := c.incr.encoded c.isImm, rn := c.rn, rt := c.rt,
               offset := c.arg.field } := by
  obtain ⟨op, cc, rt, rn, arg, incr⟩ := c
  cases arg with
  | imm x hx =>
      have hspill : bits (magnitude13 (BitVec.ofInt 32 x)) 12 4 = 0#4 := by
        apply BitVec.eq_of_toNat_eq
        rw [toNat_bits, magnitude13_of_le hx, BitVec.toNat_ofNat]
        omega
      simp only [word, AgIncr.val_eq]
      rw [decode_ldrstrImm, hspill, BitVec.or_zero]
      rfl
  | reg rm shift am add =>
      simp only [word, AgIncr.val_eq, AgShift.val_eq]
      rw [decode_ldrstrReg]
      rfl

/-- The sign and the magnitude are those of the immediate. -/
theorem immOffset_of_le {x : Int} (hx : x.natAbs ≤ 4095) :
    A32.immOffset (offsetU (BitVec.ofInt 32 x))
      (bits (magnitude13 (BitVec.ofInt 32 x)) 0 12) = x := by
  have hmag : (bits (magnitude13 (BitVec.ofInt 32 x)) 0 12).toNat
      = x.natAbs := by
    rw [toNat_bits, magnitude13_of_le hx]
    omega
  have hsle : (0#32).sle (BitVec.ofInt 32 x) = decide (0 ≤ x) := by
    simp [BitVec.sle, toInt_ofInt_of_le hx]
  unfold A32.immOffset offsetU
  rw [hmag, hsle]
  by_cases hx0 : 0 ≤ x
  · simp only [hx0, decide_true, if_true]
    rw [if_pos (show (1 : BitVec 1) = 1#1 from rfl)]
    omega
  · simp only [hx0, decide_false, Bool.false_eq_true, if_false]
    rw [if_neg (by decide)]
    omega

/-- The offset field is the operand. -/
theorem LdrstrArg.is_field (a : LdrstrArg) : a.Is a.field := by
  cases a with
  | imm x hx => exact immOffset_of_le hx
  | reg rm shift am add => exact ⟨rfl, rfl, rfl, rfl⟩

/-- The operand can be read back from its field. -/
theorem LdrstrArg.field_inj {a b : LdrstrArg} (h : a.field = b.field) :
    a = b := by
  cases a with
  | imm x hx =>
      cases b with
      | imm y hy =>
          have hxy := immOffset_of_le hx
          simp only [field, A32.LsOffset.imm.injEq] at h
          rw [h.1, h.2, immOffset_of_le hy] at hxy
          subst hxy
          rfl
      | reg rm shift am add => cases h
  | reg rm shift am add =>
      cases b with
      | imm y hy => cases h
      | reg rm' shift' am' add' =>
          simp only [field, A32.LsOffset.reg.injEq] at h
          obtain ⟨hadd, rfl, hshift, rfl⟩ := h
          have hs : shift = shift' := by
            revert hshift
            cases shift <;> cases shift' <;> decide
          have ha : add = add' := by
            revert hadd
            cases add <;> cases add' <;> decide
          subst hs ha
          rfl

-- ============================================================ the results

/-- A call decodes to itself unless it asks for post-indexing. -/
theorem LdrstrCall.decodesFrom_iff (c : LdrstrCall) :
    c.DecodesFrom c.word ↔ c.incr ≠ .postIncr := by
  rw [← AgIncr.encoded_eq_iff c.isImm]
  unfold DecodesFrom
  rw [c.decode_word]
  constructor
  · rintro ⟨d, hd, -, -, -, -, -, -, hm⟩
    cases hd
    exact hm
  · intro hm
    exact ⟨_, rfl, rfl, rfl, rfl, rfl, rfl, c.arg.is_field, hm⟩

/-- Equal words come from calls that differ in the mode at most, and
encode the same one. -/
theorem LdrstrCall.word_inj {c c' : LdrstrCall} (h : c.word = c'.word) :
    c.incr.encoded c.isImm = c'.incr.encoded c.isImm
      ∧ c' = { c with incr := c'.incr } := by
  have hd := c.decode_word
  rw [h, c'.decode_word] at hd
  simp only [Option.some.injEq, A32.LoadStore.mk.injEq] at hd
  obtain ⟨hcc, hload, hbyte, hmode, hrn, hrt, harg⟩ := hd
  have hop := LdrstrOp.eq_of_bits hload hbyte
  have hcond := AgCond.code_inj hcc
  have ha := LdrstrArg.field_inj harg
  obtain ⟨op, cc, rt, rn, arg, incr⟩ := c
  obtain ⟨op', cc', rt', rn', arg', incr'⟩ := c'
  simp only at hrn hrt hop hcond ha
  subst hop hcond hrn hrt ha
  exact ⟨hmode.symm, rfl⟩

/-- The other writeback mode gives an immediate form's word again. -/
theorem LdrstrCall.word_post_eq_pre (c : LdrstrCall)
    (himm : c.isImm = true) :
    LdrstrCall.word { c with incr := .postIncr }
      = LdrstrCall.word { c with incr := .preIncr } := by
  obtain ⟨op, cc, rt, rn, arg, incr⟩ := c
  cases arg with
  | reg rm shift am add => cases himm
  | imm x hx =>
      have hbits : agPostIncr ||| op.immOpc = agPreIncr ||| op.immOpc := by
        cases op <;> decide
      simp only [word, ldrstrImmWord, AgIncr.val, hbits]

/-- A call shares its word with another exactly when it is an immediate
form with one of the two writeback modes. -/
theorem LdrstrCall.word_unique_iff (c : LdrstrCall) :
    (∀ c' : LdrstrCall, c'.word = c.word → c' = c)
      ↔ ¬ (c.isImm = true ∧ c.incr ≠ .offsetAddr) := by
  constructor
  · rintro h ⟨himm, hincr⟩
    have hsame := c.word_post_eq_pre himm
    obtain ⟨op, cc, rt, rn, arg, incr⟩ := c
    cases incr with
    | offsetAddr => exact hincr rfl
    | preIncr => cases h ⟨op, cc, rt, rn, arg, .postIncr⟩ hsame
    | postIncr => cases h ⟨op, cc, rt, rn, arg, .preIncr⟩ hsame.symm
  · intro hnot c' hw
    obtain ⟨hmode, heq⟩ := word_inj hw.symm
    rw [heq, AgIncr.eq_of_encoded hmode hnot]

/-- The load/store round trip: a call's word decodes to the call unless
the mode is `AG_POST_INCR`, and it is no other call's word unless the
call is an immediate form with writeback. -/
theorem ldrstr_iff (c : LdrstrCall) :
    (∀ e, c.emit e = agEmit4 e c.word)
      ∧ (c.DecodesFrom c.word ↔ c.incr ≠ .postIncr)
      ∧ ((∀ c' : LdrstrCall, c'.word = c.word → c' = c)
        ↔ ¬ (c.isImm = true ∧ c.incr ≠ .offsetAddr)) :=
  ⟨c.emit_eq, c.decodesFrom_iff, c.word_unique_iff⟩

/-- A post-indexed LDR of the generator's own test. -/
def ldrPost : LdrstrCall :=
  ⟨.ldr, .condAl, 3, 3, .imm 128 (by decide), .postIncr⟩

/-- It is emitted as the pre-indexed one. -/
theorem ldrPost_is_pre :
    ldrPost.word = 0xe5b33080#32 ∧ ¬ ldrPost.DecodesFrom ldrPost.word
      ∧ LdrstrCall.word { ldrPost with incr := .preIncr }
        = ldrPost.word := by
  refine ⟨by decide, fun h => ?_, by decide⟩
  exact ldrPost.decodesFrom_iff.mp h rfl

end UdeBench.Ag
