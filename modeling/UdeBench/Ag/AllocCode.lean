/-
`ag_alloc_code` of ag/ag_gen.c: the block chains copied into one mapping
and the pending references patched into it.

The mapping is the list of its words, zero as `mmap` returns it; a
`memcpy` or a patch outside it is `none`. `sysconf` and `mmap` are not in
the repository: the page size is a parameter, and `mmap` returns a
mapping of the requested length.
-/
import UdeBench.Ag.Emitter

namespace UdeBench.Ag

open A32 (Word)

/-- What `sysconf(_SC_PAGE_SIZE)` may return. -/
structure PageSize where
  bytes : Nat
  four_dvd : 4 ∣ bytes
  pos : 0 < bytes
  le : bytes ≤ 2 ^ 16

/-- The page of 32-bit Linux. -/
def PageSize.default : PageSize where
  bytes := 4096
  four_dvd := by decide
  pos := by decide
  le := by decide

/-- `block_list_count_byte`, in `size_t`. -/
def blockListCountByte (cb : List CodeBufferBlock) : Word :=
  cb.foldl
    (fun byteCount b => byteCount + BitVec.ofNat 32 (b.cur * instSize)) 0

/-- `memcpy` of words to byte offset `off` of a mapping. -/
def memcpyWords (p : List Word) (off : Word) (ws : List Word) :
    Option (List Word) :=
  let i := off.toNat / instSize
  if off.toNat % instSize = 0 ∧ i + ws.length ≤ p.length then
    some (p.take i ++ ws ++ p.drop (i + ws.length))
  else none

/-- The copying loop of `emit_code_block` from its `i`-th block on: a
block goes where its position from the end of the chain puts it. -/
def emitCodeBlockFrom (blockCount base : Word) (p : List Word) (i : Nat) :
    List CodeBufferBlock → Option (List Word)
  | [] => some p
  | cb :: cbn =>
      let d := (blockCount - BitVec.ofNat 32 i) - 1#32
      let offset := d * BitVec.ofNat 32 codebufferSize
        * BitVec.ofNat 32 instSize
      match memcpyWords p (offset + base) cb.buffer with
      | none => none
      | some p => emitCodeBlockFrom blockCount base p (i + 1) cbn

/-- `emit_code_block`. -/
def emitCodeBlock (p : List Word) (cb0 : List CodeBufferBlock)
    (base : Word) : Option (List Word) :=
  emitCodeBlockFrom (BitVec.ofNat 32 cb0.length) base p 0 cb0

/-- The rounding of `byte_count` to whole pages, in `unsigned int`. -/
def allocSize (ps : PageSize) (byteCount : Word) : Word :=
  ((byteCount + (BitVec.ofNat 32 ps.bytes - 1#32))
    / BitVec.ofNat 32 ps.bytes) * BitVec.ofNat 32 ps.bytes

/-- One turn of the label resolution loop. -/
def resolveRef (byteCountCode : Word) (labels : List Label)
    (instList : List Word) (lr : LabelRef) : Option (List Word) :=
  match labels[lr.labelId]?, instList[lr.instOffset.toNat]? with
  | some l, some inst =>
      let labelPos :=
        if l.state = .emittedData then l.offset + (byteCountCode >>> 2)
        else l.offset
      let d := labelPos - lr.instOffset
      match lr.type with
      | .branch =>
          let d := d - 2#32
          some (instList.set lr.instOffset.toNat
            ((inst &&& 0xff000000#32) ||| (d &&& 0x00ffffff#32)))
      | .ldr =>
          let d := (d - 2#32) * 4#32
          some (instList.set lr.instOffset.toNat
            ((inst &&& ((~~~0#32) <<< 12)) ||| (d &&& 0x001fff#32)))
  | _, _ => none

/-- The label resolution loop. -/
def resolveLabels (byteCountCode : Word) (labels : List Label) :
    List Word → List LabelRef → Option (List Word)
  | instList, [] => some instList
  | instList, lr :: rest =>
      match resolveRef byteCountCode labels instList lr with
      | none => none
      | some instList => resolveLabels byteCountCode labels instList rest

/-- The mapping and the `*ret_size` of `ag_alloc_code`. -/
structure Code where
  mapping : List Word
  retSize : Word
deriving DecidableEq, Repr

/-- The words the caller gets: the first `*ret_size` bytes of the
mapping. -/
def Code.image (c : Code) : List Word :=
  c.mapping.take (c.retSize.toNat / instSize)

/-- `ag_alloc_code` up to its label resolution: the two chains copied
into a fresh mapping. With nothing emitted there is no mapping. -/
def assembleCode (ps : PageSize) (e : Emitter) : Option Code :=
  let byteCountCode := blockListCountByte e.codeLast
  let byteCountConst := blockListCountByte e.constLast
  let byteCount := byteCountCode + byteCountConst
  if byteCount = 0#32 then some ⟨[], 0⟩
  else
    let p := List.replicate ((allocSize ps byteCount).toNat / instSize) 0#32
    match emitCodeBlock p e.codeLast 0 with
    | none => none
    | some p =>
        match emitCodeBlock p e.constLast byteCountCode with
        | none => none
        | some p => some ⟨p, byteCount⟩

/-- `ag_alloc_code`: the code beside the emitter, whose chains it has
freed unless there was nothing to emit. -/
def agAllocCode (ps : PageSize) (e : Emitter) : Option (Code × Emitter) :=
  match assembleCode ps e with
  | none => none
  | some c =>
      if c.retSize = 0#32 then some (c, e)
      else
        match resolveLabels (blockListCountByte e.codeLast) e.labels
            c.mapping e.labelRefs with
        | none => none
        | some p =>
            some (⟨p, c.retSize⟩,
              { e with codeLast := [], constLast := [] })

end UdeBench.Ag
