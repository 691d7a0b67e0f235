/-
The emitter of ag/ag_gen.c in memory: the blocks and their `chain`
pointers, the arrays of labels and references (Npr/Arrays.lean), the strings
of the labels, the mapping, and what `ag_alloc_code` and
`ag_emitter_fini` free.

Objects of one type share a heap of whole values, and no two types are
ever confused: the source casts nothing but what `malloc` returns. Where
an allocation is not answered the source goes on with a null pointer,
which is a fault here. The machine is the one the code is for, so a
`size_t` has 32 bits, and a label or a reference has 12 bytes.

The words, offsets and patches are those of Emitter.lean and
AllocCode.lean. A chain is walked with as much fuel as there have been blocks.
-/
import UdeBench.Ag.AllocCode
import UdeBench.Npr.Arrays

namespace UdeBench.Ag.Memory

open A32 (Word)
open Store (Ptr Heap Fault load store malloc free)
open Npr.Arrays (Elements varrayInit vaPush elems setElem varrayDiscard
  turns)

-- ================================================================= objects

/-- `struct CodeBufferBlock`. -/
structure Block where
  chain : Option Ptr
  words : CodeBufferBlock

/-- `struct Label`, its string a pointer. -/
structure MLabel where
  label : Label
  labelStr : Option Ptr
deriving DecidableEq, Repr

/-- `struct npr_varray`. -/
abbrev Varray := Npr.Arrays.Varray 32

/-- `struct ag_Emitter`, with the heaps and the mappings around it. -/
structure Sys where
  blocks : Heap Block
  texts : Heap String
  labelArrays : Heap (Elements MLabel)
  refArrays : Heap (Elements LabelRef)
  maps : Heap (List Word)
  cur : Word
  dataCur : Word
  codeLast : Option Ptr
  constLast : Option Ptr
  labels : Varray
  labelRefs : Varray
  code : Option Ptr
  codeSize : Word

/-- Which allocations are answered, by the numbers of the objects. -/
structure Answers where
  blocks : Nat → Bool
  texts : Nat → Bool
  labels : Nat → Bool
  refs : Nat → Bool

section
variable (answers : Answers)

-- ================================================================= emission

/-- `alloc_1block`. -/
def alloc1block (bs : Heap Block) (prev : Option Ptr) :
    Except Fault (Heap Block × Ptr) :=
  malloc answers.blocks bs ⟨prev, ⟨[], Nat.zero_le _⟩⟩

/-- `b->buffer[b->cur] = val; b->cur++`. -/
def storeWord (bs : Heap Block) (p : Option Ptr) (val : Word) :
    Except Fault (Heap Block) := do
  let b ← load bs p
  match b.words.store val with
  | none => .error .overrun
  | some words => store bs p { b with words }

/-- A block in front of the code chain, if block `b` is full. -/
def freshIfFull (s : Sys) (b : Block) : Except Fault Sys :=
  if b.words.cur = codebufferSize then do
    let (blocks, p) ← alloc1block answers s.blocks s.codeLast
    .ok { s with blocks, codeLast := some p }
  else .ok s

/-- `ag_emit4`. -/
def agEmit4 (s : Sys) (val : Word) : Except Fault Sys := do
  let b ← load s.blocks s.codeLast
  let s ← freshIfFull answers s b
  let blocks ← storeWord s.blocks s.codeLast val
  .ok { s with blocks, cur := s.cur + 1 }

/-- `ag_emit4_data`. -/
def agEmit4Data (s : Sys) (val : Word) : Except Fault Sys := do
  let b ← load s.blocks s.constLast
  let s ← freshIfFull answers s b
  let blocks ← storeWord s.blocks s.constLast val
  .ok { s with blocks, dataCur := s.dataCur + 1 }

-- =================================================================== labels

/-- `ag_emit_label` and `ag_emit_data_label`: the offset and the state of
a label set. -/
def setLabel (s : Sys) (id : Nat) (l : Label) : Except Fault Sys := do
  let es ← elems s.labelArrays s.labels
  match es[id]? with
  | none => .error .overrun
  | some m =>
      let labelArrays ←
        setElem s.labelArrays s.labels id { m with label := l }
      .ok { s with labelArrays }

def agEmitLabel (s : Sys) (id : Nat) : Except Fault Sys :=
  setLabel s id ⟨.emitted, s.cur⟩

def agEmitDataLabel (s : Sys) (id : Nat) : Except Fault Sys :=
  setLabel s id ⟨.emittedData, s.dataCur⟩

/-- `strdup`, of a name that may be missing. -/
def strdupName (s : Sys) (name : Option String) :
    Except Fault (Sys × Option Ptr) :=
  match name with
  | none => .ok (s, none)
  | some name => do
      let (texts, p) ← malloc answers.texts s.texts name
      .ok ({ s with texts }, some p)

/-- `ag_alloc_label`. -/
def agAllocLabel (s : Sys) (name : Option String) (uninit : Word) :
    Except Fault (Sys × Nat) := do
  let (s, labelStr) ← strdupName answers s name
  let (labelArrays, labels) ← vaPush answers.labels s.labelArrays s.labels
    ⟨⟨.notEmitted, uninit⟩, labelStr⟩
  .ok ({ s with labelArrays, labels }, s.labels.nelem.toNat)

/-- `ag_emit_new_label`. -/
def agEmitNewLabel (s : Sys) (name : Option String) :
    Except Fault (Sys × Nat) := do
  let (s, ret) ← agAllocLabel answers s name 0
  let s ← agEmitLabel s ret
  .ok (s, ret)

/-- `ag_emit_new_data_label`. -/
def agEmitNewDataLabel (s : Sys) (name : Option String) :
    Except Fault (Sys × Nat) := do
  let (s, ret) ← agAllocLabel answers s name 0
  let s ← agEmitDataLabel s ret
  .ok (s, ret)

-- ================================================================= encoders

/-- A reference for `ag_alloc_code`. -/
def pushRef (s : Sys) (ref : LabelRef) : Except Fault Sys := do
  let (refArrays, labelRefs) ←
    vaPush answers.refs s.refArrays s.labelRefs ref
  .ok { s with refArrays, labelRefs }

/-- `ag_emit_branch`. -/
def agEmitBranch (s : Sys) (cc : AgCond) (l : Word) (dst : Nat) :
    Except Fault Sys := do
  let es ← elems s.labelArrays s.labels
  match es[dst]? with
  | none => .error .overrun
  | some m =>
      if m.label.state = .emitted then
        agEmit4 answers s (branchWord cc l (m.label.offset - s.cur - 2#32))
      else
        let s ← pushRef answers s ⟨.branch, s.cur, dst⟩
        agEmit4 answers s (branchWord cc l 0#32)

/-- `ag_emit_data_process_imm`, its result dropped. -/
def agEmitDataProcessImm (s : Sys) (cc : AgCond)
    (opc : AgDataProcessOpcode) (sb rd rn imm : Word) : Except Fault Sys :=
  if imm &&& 0xffffff00#32 ≠ 0#32 then .ok s
  else agEmit4 answers s (dataProcessImmWord cc opc sb rd rn imm)

/-- `ag_emit_movldr_imm`. -/
def agEmitMovldrImm (s : Sys) (cc : AgCond) (rd imm : Word) :
    Except Fault Sys := do
  if needsLiteral imm then
    let (s, l) ← agEmitNewDataLabel answers s none
    let s ← pushRef answers s ⟨.ldr, s.cur, l⟩
    let s ← agEmit4 answers s (ldrstrImmWord agLdrImm cc rd agPc 0 0)
    agEmit4Data answers s imm
  else if (0#32).sle imm then
    agEmitDataProcessImm answers s cc .mov 0 rd 0 imm
  else
    agEmitDataProcessImm answers s cc .mvn 0 rd 0 (~~~imm)

/-- `ag_emitter_init`. -/
def agEmitterInit : Except Fault Sys := do
  let (blocks, codeLast) ← alloc1block answers [] none
  let (blocks, constLast) ← alloc1block answers blocks none
  let (labelArrays, labels) ← varrayInit answers.labels [] 16 12
  let (refArrays, labelRefs) ← varrayInit answers.refs [] 16 12
  .ok { blocks, texts := [], labelArrays, refArrays, maps := [], cur := 0,
        dataCur := 0, codeLast := some codeLast,
        constLast := some constLast, labels, labelRefs, code := none,
        codeSize := 0 }

-- ==================================================================== calls

/-- A call in memory, with the name of the label it makes, if it makes one
and gives it a name. -/
def exec (s : Sys) (c : Call × Option String) : Except Fault Sys :=
  match c.1 with
  | .insn i => agEmit4 answers s i.word
  | .dataProcessImm cc opc sb rd rn imm =>
      agEmitDataProcessImm answers s cc opc sb rd rn imm
  | .branch cc l dst => agEmitBranch answers s cc l dst
  | .movldrImm cc rd imm => agEmitMovldrImm answers s cc rd imm
  | .label id => agEmitLabel s id
  | .dataLabel id => agEmitDataLabel s id
  | .allocLabel uninit =>
      (agAllocLabel answers s c.2 uninit).map Prod.fst
  | .newLabel => (agEmitNewLabel answers s c.2).map Prod.fst
  | .newDataLabel => (agEmitNewDataLabel answers s c.2).map Prod.fst

/-- A run of calls on a new emitter. -/
def run (cs : List (Call × Option String)) : Except Fault Sys := do
  let s ← agEmitterInit answers
  cs.foldlM (exec answers) s

end

-- ================================================================== chains

/-- `block_list_count_byte`. -/
def blockListCountByte (bs : Heap Block) :
    Nat → Option Ptr → Word → Except Fault Word
  | _, none, byteCount => .ok byteCount
  | 0, some _, _ => .error .noReturn
  | fuel + 1, some p, byteCount => do
      let b ← load bs (some p)
      blockListCountByte bs fuel b.chain
        (byteCount + BitVec.ofNat 32 (b.words.cur * instSize))

/-- The counting loop of `emit_code_block`. -/
def countBlocks (bs : Heap Block) :
    Nat → Option Ptr → Nat → Except Fault Nat
  | _, none, blockCount => .ok blockCount
  | 0, some _, _ => .error .noReturn
  | fuel + 1, some p, blockCount => do
      let b ← load bs (some p)
      countBlocks bs fuel b.chain (blockCount + 1)

/-- The copying loop, with `n` blocks to go: each is freed as soon as it
is copied. -/
def copyBlocks (blockCount base : Word) :
    Nat → Nat → List Word → Heap Block → Option Ptr →
      Except Fault (List Word × Heap Block)
  | 0, _, p, bs, _ => .ok (p, bs)
  | n + 1, i, p, bs, cb => do
      let b ← load bs cb
      let d := (blockCount - BitVec.ofNat 32 i) - 1#32
      let offset := d * BitVec.ofNat 32 codebufferSize
        * BitVec.ofNat 32 instSize
      match memcpyWords p (offset + base) b.words.buffer with
      | none => .error .overrun
      | some p =>
          let bs ← match cb with
            | none => .error .null
            | some q => free bs q
          copyBlocks blockCount base n (i + 1) p bs b.chain

/-- `emit_code_block`. -/
def emitCodeBlock (p : List Word) (bs : Heap Block) (cb0 : Option Ptr)
    (base : Word) : Except Fault (List Word × Heap Block) := do
  let blockCount ← countBlocks bs (bs.length + 1) cb0 0
  copyBlocks (BitVec.ofNat 32 blockCount) base blockCount 0 p bs cb0

/-- `ag_alloc_code`: `*ret` and `*ret_size` beside the emitter. -/
def agAllocCode (ps : PageSize) (s : Sys) :
    Except Fault (Sys × Option Ptr × Word) := do
  let fuel := s.blocks.length + 1
  let byteCountCode ← blockListCountByte s.blocks fuel s.codeLast 0
  let byteCountConst ← blockListCountByte s.blocks fuel s.constLast 0
  let byteCount := byteCountCode + byteCountConst
  if byteCount = 0#32 then .ok (s, none, 0)
  else
    let allocSize := allocSize ps byteCount
    let p := List.replicate (allocSize.toNat / instSize) 0#32
    let (p, blocks) ← emitCodeBlock p s.blocks s.codeLast 0
    let (p, blocks) ← emitCodeBlock p blocks s.constLast byteCountCode
    let labels ← elems s.labelArrays s.labels
    let refs ← elems s.refArrays s.labelRefs
    match resolveLabels byteCountCode (labels.map MLabel.label) p
      (refs.take (turns s.labelRefs.nelem)) with
    | none => .error .overrun
    | some p =>
        -- the mapping is written in place, and is entered as it ends up
        .ok ({ s with blocks, maps := s.maps ++ [some p], codeLast := none,
                      constLast := none, code := some s.maps.length,
                      codeSize := allocSize },
          some s.maps.length, byteCount)

/-- `free_chain`. -/
def freeChain : Nat → Heap Block → Option Ptr → Except Fault (Heap Block)
  | _, bs, none => .ok bs
  | 0, _, some _ => .error .noReturn
  | fuel + 1, bs, some cb => do
      let b ← load bs (some cb)
      let bs ← free bs cb
      freeChain fuel bs b.chain

/-- The strings of the labels freed. -/
def freeTexts (texts : Heap String) (labels : List MLabel) :
    Except Fault (Heap String) :=
  labels.foldlM (fun texts l =>
    match l.labelStr with
    | none => .ok texts
    | some p => free texts p) texts

/-- The code unmapped, if there is any. -/
def munmapCode (s : Sys) : Except Fault (Heap (List Word)) :=
  match s.code with
  | none => .ok s.maps
  | some p => free s.maps p

/-- `ag_emitter_fini`. -/
def agEmitterFini (s : Sys) : Except Fault Sys := do
  let maps ← munmapCode s
  let fuel := s.blocks.length + 1
  let blocks ← freeChain fuel s.blocks s.codeLast
  let blocks ← freeChain fuel blocks s.constLast
  let labels ← elems s.labelArrays s.labels
  let texts ← freeTexts s.texts (labels.take (turns s.labels.nelem))
  let labelArrays ← varrayDiscard s.labelArrays s.labels
  let refArrays ← varrayDiscard s.refArrays s.labelRefs
  .ok { s with maps, blocks, texts, labelArrays, refArrays }

end UdeBench.Ag.Memory
