/-
The emitter of ag/ag_gen.c: `struct ag_Emitter`, its two chains of
512-word code buffer blocks, the label table and the pending references,
and every function that appends to them.

# Target and representation

The program calls the A32 code it generates and passes addresses as
`int`, so the model is of the 32-bit build: `int`, `unsigned`, `size_t`
and pointers are all 32 bits, and the counters `cur` and `data_cur` wrap
as the source's `unsigned int` does.

A chain is the list of its blocks, newest first; the empty list is
`NULL`. A block holds the words stored so far (`buffer[0 .. cur)`): the
slots past `cur` are never read. The `npr_varray`s `labels` and
`label_refs` are the lists of their elements, and `VA_PUSH` appends.
`label_str` and the mapping kept for `ag_emitter_fini` are left out: no
function here reads them.

A function is `none` where the C would leave its objects: a store past
`buffer`, a label id that is not in the table, an emission after
`ag_alloc_code` has taken the chains.
-/
import UdeBench.Ag.Insns

namespace UdeBench.Ag

open A32 (Word)

-- ===================================================== the emitter state

/-- `CODEBUFFER_SIZE`. -/
def codebufferSize : Nat := 512

/-- `INST_SIZE`. -/
def instSize : Nat := 4

/-- `struct CodeBufferBlock`, without its `chain` (the rest of the list
that holds it): the words stored so far, never more than the array
has. -/
structure CodeBufferBlock where
  buffer : List Word
  hcap : buffer.length ≤ codebufferSize

/-- The field `cur`. -/
def CodeBufferBlock.cur (b : CodeBufferBlock) : Nat := b.buffer.length

/-- `b->buffer[b->cur] = val; b->cur++`, which leaves the array when the
block is full. -/
def CodeBufferBlock.store (b : CodeBufferBlock) (val : Word) :
    Option CodeBufferBlock :=
  if h : b.cur < codebufferSize then
    some ⟨b.buffer ++ [val], by
      rw [List.length_append]
      exact h⟩
  else none

/-- `enum label_state`. -/
inductive LabelState
  | emitted | notEmitted | emittedData
deriving DecidableEq, Repr

/-- `struct Label`. -/
structure Label where
  state : LabelState
  offset : Word
deriving DecidableEq, Repr

/-- `enum labelref_type`. -/
inductive LabelrefType
  | branch | ldr
deriving DecidableEq, Repr

/-- `struct LabelRef`. -/
structure LabelRef where
  type : LabelrefType
  instOffset : Word
  labelId : Nat
deriving DecidableEq, Repr

/-- `struct ag_Emitter`. -/
structure Emitter where
  cur : Word
  dataCur : Word
  codeLast : List CodeBufferBlock
  constLast : List CodeBufferBlock
  labels : List Label
  labelRefs : List LabelRef

-- ============================================================== emission

/-- `alloc_1block`: an empty block in front of the chain. -/
def alloc1block (prev : List CodeBufferBlock) : List CodeBufferBlock :=
  ⟨[], Nat.zero_le _⟩ :: prev

/-- The store into the head block of a chain. -/
def storeHead : List CodeBufferBlock → Word → Option (List CodeBufferBlock)
  | [], _ => none
  | b :: chain, val =>
      match b.store val with
      | none => none
      | some b' => some (b' :: chain)

/-- `ag_emit4`. -/
def agEmit4 (e : Emitter) (val : Word) : Option Emitter :=
  match e.codeLast with
  | [] => none
  | b :: _ =>
      let codeLast :=
        if b.cur = codebufferSize then alloc1block e.codeLast
        else e.codeLast
      match storeHead codeLast val with
      | none => none
      | some codeLast =>
          some { e with codeLast := codeLast, cur := e.cur + 1 }

/-- `ag_emit4_data`. The fresh block of a full literal buffer goes to the
front of the code chain, and the store is into the full block. -/
def agEmit4Data (e : Emitter) (val : Word) : Option Emitter :=
  match e.constLast with
  | [] => none
  | b :: _ =>
      let e :=
        if b.cur = codebufferSize then
          { e with codeLast := alloc1block e.codeLast }
        else e
      match storeHead e.constLast val with
      | none => none
      | some constLast =>
          some { e with constLast := constLast, dataCur := e.dataCur + 1 }

-- ================================================================ labels

/-- `ag_emit_label`. -/
def agEmitLabel (e : Emitter) (label : Nat) : Option Emitter :=
  match e.labels[label]? with
  | none => none
  | some _ =>
      some { e with labels := e.labels.set label ⟨.emitted, e.cur⟩ }

/-- `ag_emit_data_label`. -/
def agEmitDataLabel (e : Emitter) (label : Nat) : Option Emitter :=
  match e.labels[label]? with
  | none => none
  | some _ =>
      some { e with labels := e.labels.set label ⟨.emittedData, e.dataCur⟩ }

/-- `ag_alloc_label`. The new label's `offset` is not initialised:
`uninit` is whatever the stack held. -/
def agAllocLabel (e : Emitter) (uninit : Word) : Emitter × Nat :=
  ({ e with labels := e.labels ++ [⟨.notEmitted, uninit⟩] },
    e.labels.length)

/-- `ag_emit_new_label`. The uninitialised offset is overwritten at
once, so any value stands for it. -/
def agEmitNewLabel (e : Emitter) : Option (Emitter × Nat) :=
  let (e, ret) := agAllocLabel e 0
  match agEmitLabel e ret with
  | none => none
  | some e => some (e, ret)

/-- `ag_emit_new_data_label`. -/
def agEmitNewDataLabel (e : Emitter) : Option (Emitter × Nat) :=
  let (e, ret) := agAllocLabel e 0
  match agEmitDataLabel e ret with
  | none => none
  | some e => some (e, ret)

-- ============================================================== encoders

/-- The word `ag_emit_branch` emits at offset `off`. -/
def branchWord (cc : AgCond) (l off : Word) : Word :=
  (cc.val <<< 28) ||| (0x5#32 <<< 25) ||| (l <<< 24)
    ||| (off &&& 0x00ffffff#32)

/-- `ag_emit_branch`: the offset at once if the label is bound in the
code, else zero and a reference for `ag_alloc_code` to patch. -/
def agEmitBranch (e : Emitter) (cc : AgCond) (l : Word) (dst : Nat) :
    Option Emitter :=
  match e.labels[dst]? with
  | none => none
  | some label =>
      if label.state = .emitted then
        agEmit4 e (branchWord cc l (label.offset - e.cur - 2#32))
      else
        let ref : LabelRef := ⟨.branch, e.cur, dst⟩
        agEmit4 { e with labelRefs := e.labelRefs ++ [ref] }
          (branchWord cc l 0#32)

def agEmitB (e : Emitter) (cc : AgCond) (dst : Nat) : Option Emitter :=
  agEmitBranch e cc 0 dst

def agEmitBl (e : Emitter) (cc : AgCond) (dst : Nat) : Option Emitter :=
  agEmitBranch e cc 1 dst

def agEmitBx (e : Emitter) (cc : AgCond) (reg : Word) : Option Emitter :=
  agEmit4 e (bxWord cc reg)

def agEmitDataProcessReg (e : Emitter) (cc : AgCond)
    (opc : AgDataProcessOpcode) (s rd rn rm shift : Word) :
    Option Emitter :=
  agEmit4 e (dataProcessRegWord cc opc s rd rn rm shift)

/-- `ag_emit_data_process_imm`: its result beside the emitter, negative
and with nothing emitted when `imm` does not fit eight bits. -/
def agEmitDataProcessImm (e : Emitter) (cc : AgCond)
    (opc : AgDataProcessOpcode) (s rd rn imm : Word) :
    Option (Emitter × Int) :=
  if imm &&& 0xffffff00#32 ≠ 0#32 then some (e, -1)
  else
    match agEmit4 e (dataProcessImmWord cc opc s rd rn imm) with
    | none => none
    | some e => some (e, 0)

def agEmitSubImm (e : Emitter) (cc : AgCond) (s rd rn imm : Word) :
    Option (Emitter × Int) :=
  agEmitDataProcessImm e cc .sub s rd rn imm

def agEmitMovImm (e : Emitter) (cc : AgCond) (s rd rn imm : Word) :
    Option (Emitter × Int) :=
  agEmitDataProcessImm e cc .mov s rd rn imm

def agEmitMvnImm (e : Emitter) (cc : AgCond) (s rd rn imm : Word) :
    Option (Emitter × Int) :=
  agEmitDataProcessImm e cc .mvn s rd rn imm

def agEmitVr3 (e : Emitter) (opc q size vd vn vm : Word) :
    Option Emitter :=
  agEmit4 e (vr3Word opc q size vd vn vm)

def agEmitVdup (e : Emitter) (cc : AgCond) (opc q vd rt : Word) :
    Option Emitter :=
  agEmit4 e (vdupWord cc opc q vd rt)

def agEmitVdup32 (e : Emitter) (cc : AgCond) (q vd rt : Word) :
    Option Emitter :=
  agEmitVdup e cc (0x0e800b10#32 ||| 0x00000000#32) q vd rt

def agEmitVcvt (e : Emitter) (opc q vd vm : Word) : Option Emitter :=
  agEmit4 e (vcvtWord opc q vd vm)

def agEmitMul (e : Emitter) (cc : AgCond) (s rd rm rs : Word) :
    Option Emitter :=
  agEmit4 e (mulWord cc s rd rm rs)

def agEmitMla (e : Emitter) (cc : AgCond) (s rd rm rs rn : Word) :
    Option Emitter :=
  agEmit4 e (mlaWord cc s rd rm rs rn)

def agEmitLdrstrReg (e : Emitter) (opc : Word) (cc : AgCond)
    (rt rn rm shift add incr : Word) : Option Emitter :=
  agEmit4 e (ldrstrRegWord opc cc rt rn rm shift add incr)

def agEmitLdrReg (e : Emitter) (cc : AgCond)
    (rt rn rm shift add incr : Word) : Option Emitter :=
  agEmitLdrstrReg e agLdrReg cc rt rn rm shift add incr

def agEmitLdrbReg (e : Emitter) (cc : AgCond)
    (rt rn rm shift add incr : Word) : Option Emitter :=
  agEmitLdrstrReg e agLdrbReg cc rt rn rm shift add incr

def agEmitStrReg (e : Emitter) (cc : AgCond)
    (rt rn rm shift add incr : Word) : Option Emitter :=
  agEmitLdrstrReg e agStrReg cc rt rn rm shift add incr

def agEmitStrbReg (e : Emitter) (cc : AgCond)
    (rt rn rm shift add incr : Word) : Option Emitter :=
  agEmitLdrstrReg e agStrbReg cc rt rn rm shift add incr

def agEmitLdstm (e : Emitter) (cc : AgCond) (p u s w l rn regBits : Word) :
    Option Emitter :=
  agEmit4 e (ldstmWord cc p u s w l rn regBits)

def agEmitPush (e : Emitter) (cc : AgCond) (regBits : Word) :
    Option Emitter :=
  agEmitLdstm e cc 1 0 0 1 0 agSp regBits

def agEmitPop (e : Emitter) (cc : AgCond) (regBits : Word) :
    Option Emitter :=
  agEmitLdstm e cc 0 1 0 1 1 agSp regBits

def agEmitLdrstrImm (e : Emitter) (opc : Word) (cc : AgCond)
    (rt rn imm incr : Word) : Option Emitter :=
  agEmit4 e (ldrstrImmWord opc cc rt rn imm incr)

def agEmitLdrImm (e : Emitter) (cc : AgCond) (rt rn imm incr : Word) :
    Option Emitter :=
  agEmitLdrstrImm e agLdrImm cc rt rn imm incr

def agEmitLdrbImm (e : Emitter) (cc : AgCond) (rt rn imm incr : Word) :
    Option Emitter :=
  agEmitLdrstrImm e agLdrbImm cc rt rn imm incr

def agEmitStrImm (e : Emitter) (cc : AgCond) (rt rn imm incr : Word) :
    Option Emitter :=
  agEmitLdrstrImm e agStrImm cc rt rn imm incr

def agEmitStrbImm (e : Emitter) (cc : AgCond) (rt rn imm incr : Word) :
    Option Emitter :=
  agEmitLdrstrImm e agStrbImm cc rt rn imm incr

/-- The immediate form of the operation. -/
def LdrstrOp.emitImm (e : Emitter) : LdrstrOp → AgCond → Word → Word →
    Word → Word → Option Emitter
  | ldr => agEmitLdrImm e
  | str => agEmitStrImm e
  | ldrb => agEmitLdrbImm e
  | strb => agEmitStrbImm e

/-- The register form of the operation. -/
def LdrstrOp.emitReg (e : Emitter) : LdrstrOp → AgCond → Word → Word →
    Word → Word → Word → Word → Option Emitter
  | ldr => agEmitLdrReg e
  | str => agEmitStrReg e
  | ldrb => agEmitLdrbReg e
  | strb => agEmitStrbReg e

def agEmitLdrex (e : Emitter) (cc : AgCond) (rd rn : Word) :
    Option Emitter :=
  agEmit4 e (ldrexWord cc rd rn)

def agEmitStrex (e : Emitter) (cc : AgCond) (rd rm rn : Word) :
    Option Emitter :=
  agEmit4 e (strexWord cc rd rm rn)

def agEmitVldst1 (e : Emitter) (vd rn rm align opc size : Word) :
    Option Emitter :=
  agEmit4 e (vldst1Word vd rn rm align opc size)

/-- Whether `ag_emit_movldr_imm` needs a literal for `imm`. -/
def needsLiteral (imm : Word) : Bool :=
  (255#32).slt imm || imm.slt (-256)

/-- `ag_emit_movldr_imm`. -/
def agEmitMovldrImm (e : Emitter) (cc : AgCond) (rd imm : Word) :
    Option Emitter :=
  if needsLiteral imm then
    match agEmitNewDataLabel e with
    | none => none
    | some (e, l) =>
        let ref : LabelRef := ⟨.ldr, e.cur, l⟩
        match agEmitLdrImm { e with labelRefs := e.labelRefs ++ [ref] }
            cc rd agPc 0 0 with
        | none => none
        | some e => agEmit4Data e imm
  else if (0#32).sle imm then
    (agEmitMovImm e cc 0 rd 0 imm).map Prod.fst
  else
    (agEmitMvnImm e cc 0 rd 0 (~~~imm)).map Prod.fst

/-- `ag_emitter_init`. -/
def agEmitterInit : Emitter :=
  { cur := 0, dataCur := 0, codeLast := alloc1block [],
    constLast := alloc1block [], labels := [], labelRefs := [] }

-- ================================================================= calls

/-- The encoder behind an instruction. -/
def Insn.emit (e : Emitter) : Insn → Option Emitter
  | bx cc reg => agEmitBx e cc reg
  | dataProcessReg cc opc s rd rn rm shift =>
      agEmitDataProcessReg e cc opc s rd rn rm shift
  | vr3 opc q size vd vn vm => agEmitVr3 e opc q size vd vn vm
  | vdup cc opc q vd rt => agEmitVdup e cc opc q vd rt
  | vcvt opc q vd vm => agEmitVcvt e opc q vd vm
  | mul cc s rd rm rs => agEmitMul e cc s rd rm rs
  | mla cc s rd rm rs rn => agEmitMla e cc s rd rm rs rn
  | ldrstrReg opc cc rt rn rm shift add incr =>
      agEmitLdrstrReg e opc cc rt rn rm shift add incr
  | ldstm cc p u s w l rn regBits =>
      agEmitLdstm e cc p u s w l rn regBits
  | ldrstrImm opc cc rt rn imm incr =>
      agEmitLdrstrImm e opc cc rt rn imm incr
  | ldrex cc rd rn => agEmitLdrex e cc rd rn
  | strex cc rd rm rn => agEmitStrex e cc rd rm rn
  | vldst1 vd rn rm align opc size =>
      agEmitVldst1 e vd rn rm align opc size

/-- One call of the emitter interface. The per-mnemonic entry points
(`ag_emit_b`, `ag_emit_ldr_imm`, `ag_emit_push`, ...) are these with
some arguments fixed. -/
inductive Call
  | insn (i : Insn)
  | dataProcessImm (cc : AgCond) (opc : AgDataProcessOpcode)
      (s rd rn imm : Word)
  | branch (cc : AgCond) (l : Word) (dst : Nat)
  | movldrImm (cc : AgCond) (rd imm : Word)
  | label (id : Nat)
  | dataLabel (id : Nat)
  | allocLabel (uninit : Word)
  | newLabel
  | newDataLabel
deriving DecidableEq, Repr

/-- The call's effect on the emitter. -/
def Call.exec (e : Emitter) : Call → Option Emitter
  | insn i => i.emit e
  | dataProcessImm cc opc s rd rn imm =>
      (agEmitDataProcessImm e cc opc s rd rn imm).map Prod.fst
  | branch cc l dst => agEmitBranch e cc l dst
  | movldrImm cc rd imm => agEmitMovldrImm e cc rd imm
  | label id => agEmitLabel e id
  | dataLabel id => agEmitDataLabel e id
  | allocLabel uninit => some (agAllocLabel e uninit).1
  | newLabel => (agEmitNewLabel e).map Prod.fst
  | newDataLabel => (agEmitNewDataLabel e).map Prod.fst

/-- A run of calls from a given emitter. -/
def runFrom (e : Emitter) : List Call → Option Emitter
  | [] => some e
  | c :: cs =>
      match c.exec e with
      | none => none
      | some e => runFrom e cs

/-- A run of calls after `ag_emitter_init`. -/
def run (cs : List Call) : Option Emitter := runFrom agEmitterInit cs

end UdeBench.Ag
