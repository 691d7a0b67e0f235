/-
The layout of the code image: what `ag_alloc_code` has assembled before
it resolves labels is the instruction words in emission order and then
the literals in emission order.

`emit_code_block` places a block by its position in the chain alone: the
block with `d` blocks behind it goes to word `512 * d`. That is right
because every block behind another is full (`ChainHolds.full`), so the
words behind it number exactly `512 * d`.

# Memory

The counters are 32 bits and wrap. They do not, because the blocks and
the image are objects of one 32-bit address space: `Listing.Placed`
says that `malloc` and `mmap` have given all of them room, and
`Placed.sum_le` turns that into the bound the arithmetic needs.
`ChainHolds.length_eq` ties the sizes named there to the chains the
emitter really has.

# The boundary

The layout holds exactly up to 512 literals: the next one opens its
block on the code chain and is stored past the full literal block.
-/
import UdeBench.Ag.AllocCode
import UdeBench.Ag.Proofs.Refine
import UdeBench.Lib.Spans

namespace UdeBench.Ag

open A32 (Word)

-- ================================================================ memory

/-- `sizeof(struct CodeBufferBlock)` with 32-bit pointers and sizes. -/
def sizeofCodeBufferBlock : Nat := 4 + 4 + codebufferSize * instSize

/-- The blocks a chain needs for `n` words: one from the start, and one
more each time the head is full. -/
def blockCount (n : Nat) : Nat :=
  max 1 ((n + (codebufferSize - 1)) / codebufferSize)

/-- `malloc` and `mmap` found room for every block and for the image in
the 32-bit address space. -/
def Listing.Placed (L : Listing) : Prop :=
  Spans.Placed (2 ^ 32)
    (List.replicate (blockCount L.code.length + blockCount L.data.length)
        sizeofCodeBufferBlock
      ++ [instSize * (L.code.length + L.data.length)])

/-- The blocks hold what they are needed for. -/
theorem le_blockCount (n : Nat) : n ≤ codebufferSize * blockCount n := by
  simp only [blockCount, codebufferSize]
  omega

/-- What is placed keeps clear of the end of the address space, by more
than any page. -/
theorem Listing.Placed.fits {L : Listing} (h : L.Placed) :
    instSize * (L.code.length + L.data.length) + 2 ^ 16 ≤ 2 ^ 32 := by
  have hsum := Spans.Placed.sum_le h
  rw [List.sum_append, List.sum_replicate, Nat.nsmul_eq_mul] at hsum
  have hcode := le_blockCount L.code.length
  have hdata := le_blockCount L.data.length
  simp only [List.sum_singleton, sizeofCodeBufferBlock,
    codebufferSize, instSize] at *
  omega

/-- Code and literals that fit are placed. -/
theorem Listing.placed_of_fits {L : Listing}
    (h : instSize * (L.code.length + L.data.length) ≤ 2 ^ 30) :
    L.Placed := by
  rw [Listing.Placed, Spans.placed_iff, List.sum_append,
    List.sum_replicate, Nat.nsmul_eq_mul, List.sum_singleton]
  simp only [blockCount, sizeofCodeBufferBlock, codebufferSize,
    instSize] at *
  omega

-- ========================================================= chain lengths

/-- Full blocks hold 512 words each. -/
theorem length_chainWords_of_full {cb : List CodeBufferBlock}
    (h : ∀ b ∈ cb, b.cur = codebufferSize) :
    (chainWords cb).length = codebufferSize * cb.length := by
  induction cb with
  | nil => rfl
  | cons b cb ih =>
      have hb : b.buffer.length = codebufferSize := h b List.mem_cons_self
      have hcb := ih fun x hx => h x (List.mem_cons_of_mem _ hx)
      rw [chainWords, List.length_append, hcb, hb, List.length_cons]
      ring

/-- A chain has the blocks its words need, and no more. -/
theorem ChainHolds.length_eq {cb : List CodeBufferBlock} {ws : List Word}
    (h : ChainHolds cb ws) : cb.length = blockCount ws.length := by
  obtain ⟨b, chain, rfl⟩ := List.exists_cons_of_ne_nil h.ne_nil
  have hchain : (chainWords chain).length
      = codebufferSize * chain.length := length_chainWords_of_full h.full
  have hlen : ws.length = codebufferSize * chain.length + b.cur := by
    rw [← h.words, chainWords, List.length_append, hchain]
    rfl
  have hle := b.cur_le
  have hpos : chain ≠ [] → 0 < b.cur := fun hne => h.opened hne b rfl
  cases chain with
  | nil =>
      simp only [List.length_nil, List.length_cons, blockCount,
        codebufferSize] at *
      omega
  | cons b' chain =>
      have hb := hpos (List.cons_ne_nil _ _)
      simp only [List.length_cons, blockCount, codebufferSize] at *
      omega

/-- The counts of a chain's blocks add up to its words. -/
theorem sum_cur_eq (cb : List CodeBufferBlock) :
    (cb.map CodeBufferBlock.cur).sum = (chainWords cb).length := by
  induction cb with
  | nil => rfl
  | cons b cb ih =>
      rw [List.map_cons, List.sum_cons, ih, chainWords, List.length_append]
      exact Nat.add_comm _ _

/-- `block_list_count_byte` counts four bytes for each word. -/
theorem blockListCountByte_eq (cb : List CodeBufferBlock) :
    blockListCountByte cb
      = BitVec.ofNat 32 (instSize * (chainWords cb).length) := by
  have hfold : ∀ (cb : List CodeBufferBlock) (n : Nat),
      cb.foldl (fun byteCount b =>
          byteCount + BitVec.ofNat 32 (b.cur * instSize)) (BitVec.ofNat 32 n)
        = BitVec.ofNat 32 (n + instSize * (chainWords cb).length) := by
    intro cb
    induction cb with
    | nil => intro n; rfl
    | cons b cb ih =>
        intro n
        rw [List.foldl_cons, ← BitVec.ofNat_add, ih, chainWords,
          List.length_append]
        congr 1
        show _ = n + instSize * ((chainWords cb).length + b.cur)
        ring
  have h0 := hfold cb 0
  rw [Nat.zero_add] at h0
  exact h0

-- ============================================================ the copying

/-- A `memcpy` into a mapping replaces the words it covers. -/
theorem memcpyWords_eq {A B C ws : List Word} {off : Word}
    (hoff : off.toNat = instSize * A.length) (hB : B.length = ws.length) :
    memcpyWords (A ++ B ++ C) off ws = some (A ++ ws ++ C) := by
  unfold memcpyWords
  have hi : off.toNat / instSize = A.length := by
    rw [hoff]
    exact Nat.mul_div_cancel_left _ (by decide)
  have hm : off.toNat % instSize = 0 := by
    rw [hoff]
    exact Nat.mul_mod_right _ _
  simp only [hi, hm, List.length_append]
  rw [if_pos ⟨trivial, by omega⟩]
  congr 1
  rw [List.append_assoc A B C, List.take_left, ← hB, ← List.length_append,
    ← List.append_assoc, List.drop_left]

/-- The offset of the block with `d` blocks behind it. -/
theorem blockOffset_toNat {d base : Nat}
    (h : instSize * (codebufferSize * d) + base < 2 ^ 32) :
    (BitVec.ofNat 32 d * BitVec.ofNat 32 codebufferSize
        * BitVec.ofNat 32 instSize + BitVec.ofNat 32 base).toNat
      = instSize * (codebufferSize * d) + base := by
  rw [← BitVec.ofNat_mul, ← BitVec.ofNat_mul, ← BitVec.ofNat_add,
    BitVec.toNat_ofNat, Nat.mod_eq_of_lt]
  · ring
  · calc d * codebufferSize * instSize + base
        = instSize * (codebufferSize * d) + base := by ring
      _ < 2 ^ 32 := h

/-- The copying loop fills exactly the words of its chain: blocks go
from the newest at the far end to the oldest at `base`. Induction on the
chain, with what lies past it growing by each copied block. -/
theorem emitCodeBlockFrom_eq {A : List Word} :
    ∀ (cb : List CodeBufferBlock) (i : Nat) (B C : List Word),
      (∀ b ∈ cb.tail, b.cur = codebufferSize) →
      B.length = (chainWords cb).length →
      instSize * (A.length + B.length) < 2 ^ 32 →
      emitCodeBlockFrom (BitVec.ofNat 32 (i + cb.length))
          (BitVec.ofNat 32 (instSize * A.length)) (A ++ B ++ C) i cb
        = some (A ++ chainWords cb ++ C) := by
  intro cb
  induction cb with
  | nil =>
      intro i B C _ hB _
      rw [List.eq_nil_of_length_eq_zero hB]
      rfl
  | cons b chain ih =>
      intro i B C hfull hB hlt
      have hchain := length_chainWords_of_full hfull
      rw [List.tail_cons] at hchain
      rw [chainWords, List.length_append, hchain] at hB
      -- the words behind the head block, and its own
      obtain ⟨B₁, B₂, rfl, hB₁⟩ : ∃ B₁ B₂, B = B₁ ++ B₂
          ∧ B₁.length = codebufferSize * chain.length :=
        ⟨B.take (codebufferSize * chain.length),
          B.drop (codebufferSize * chain.length),
          (List.take_append_drop _ _).symm, by
            rw [List.length_take]; omega⟩
      rw [List.length_append] at hB hlt
      have hd : (BitVec.ofNat 32 (i + (b :: chain).length)
          - BitVec.ofNat 32 i) - 1#32 = BitVec.ofNat 32 chain.length := by
        rw [BitVec.ofNat_add, BitVec.add_comm, BitVec.add_sub_cancel,
          List.length_cons, BitVec.ofNat_add]
        exact BitVec.add_sub_cancel _ _
      have hroom : instSize * (codebufferSize * chain.length)
          + instSize * A.length < 2 ^ 32 := by
        simp only [instSize] at hlt ⊢
        omega
      have hoff := blockOffset_toNat hroom
      have hcopy : memcpyWords (A ++ (B₁ ++ B₂) ++ C)
          (BitVec.ofNat 32 chain.length * BitVec.ofNat 32 codebufferSize
            * BitVec.ofNat 32 instSize
            + BitVec.ofNat 32 (instSize * A.length)) b.buffer
          = some (A ++ B₁ ++ (b.buffer ++ C)) := by
        rw [← List.append_assoc A B₁ B₂, memcpyWords_eq
          (by rw [hoff, List.length_append, hB₁]; ring) (by omega)]
        rw [List.append_assoc (A ++ B₁)]
      have hrest := ih (i + 1) B₁ (b.buffer ++ C)
        (fun x hx => hfull x (List.mem_of_mem_tail hx))
        (by rw [hB₁, hchain])
        (by simp only [instSize] at hlt ⊢; omega)
      rw [Nat.add_assoc, Nat.add_comm 1,
        ← List.length_cons (a := b)] at hrest
      unfold emitCodeBlockFrom
      simp only [hd]
      rw [hcopy]
      show emitCodeBlockFrom _ _ (A ++ B₁ ++ (b.buffer ++ C)) (i + 1) chain
        = _
      rw [hrest, chainWords]
      simp only [List.append_assoc]

/-- `emit_code_block` writes the words of its chain at `base`. -/
theorem emitCodeBlock_eq {cb : List CodeBufferBlock} {A B C ws : List Word}
    (h : ChainHolds cb ws) (hB : B.length = ws.length)
    (hlt : instSize * (A.length + B.length) < 2 ^ 32) :
    emitCodeBlock (A ++ B ++ C) cb
        (BitVec.ofNat 32 (instSize * A.length))
      = some (A ++ ws ++ C) := by
  have hgo := emitCodeBlockFrom_eq (A := A) cb 0 B C h.full
    (by rw [h.words]; exact hB) hlt
  rw [h.words, Nat.zero_add] at hgo
  exact hgo

-- ============================================================ the mapping

/-- The mapping is at least as long as what goes into it. -/
theorem le_allocSize (ps : PageSize) {n : Nat} (h : n + 2 ^ 16 ≤ 2 ^ 32) :
    n ≤ (allocSize ps (BitVec.ofNat 32 n)).toNat := by
  have hpos := ps.pos
  have hle := ps.le
  have hnum : (BitVec.ofNat 32 n
      + (BitVec.ofNat 32 ps.bytes - 1#32)).toNat = n + (ps.bytes - 1) := by
    rw [BitVec.toNat_add, BitVec.toNat_sub, BitVec.toNat_ofNat,
      BitVec.toNat_ofNat, BitVec.toNat_ofNat]
    omega
  have hps : (BitVec.ofNat 32 ps.bytes).toNat = ps.bytes := by
    rw [BitVec.toNat_ofNat]
    omega
  have hmul : (n + (ps.bytes - 1)) / ps.bytes * ps.bytes
      ≤ n + (ps.bytes - 1) := Nat.div_mul_le_self _ _
  have hround : n ≤ (n + (ps.bytes - 1)) / ps.bytes * ps.bytes := by
    have hmod := Nat.mod_lt (n + (ps.bytes - 1)) hpos
    have hdiv := Nat.div_add_mod (n + (ps.bytes - 1)) ps.bytes
    rw [Nat.mul_comm] at hdiv
    omega
  unfold allocSize
  rw [BitVec.toNat_mul, BitVec.toNat_udiv, hnum, hps, Nat.mod_eq_of_lt
    (by omega)]
  exact hround

/-- The literal chain of a simulated emitter holds the literals. -/
theorem Sim.data_holds {e : Emitter} {L : Listing} (h : Sim e L) :
    ChainHolds e.constLast L.data := by
  obtain ⟨b, hb, hbuf⟩ := h.data
  rw [hb]
  refine ⟨List.cons_ne_nil _ _, ?_, ?_, ?_⟩
  · simp [chainWords, hbuf]
  · intro x hx
    cases hx
  · intro hne
    exact absurd rfl hne

/-- The byte count of the code of a simulated emitter. -/
theorem Sim.byteCountCode {e : Emitter} {L : Listing} (h : Sim e L) :
    blockListCountByte e.codeLast
      = BitVec.ofNat 32 (instSize * L.code.length) := by
  rw [blockListCountByte_eq, h.code.words, Listing.length_emitted]

/-- What `ag_alloc_code` assembles: the words in emission order, the
literals in emission order, and the zero rest of the last page. -/
theorem assembleCode_eq (ps : PageSize) {e : Emitter} {L : Listing}
    (h : Sim e L) (hmem : L.Placed) :
    ∃ z, assembleCode ps e
      = some ⟨L.emitted ++ L.data ++ List.replicate z 0#32,
          BitVec.ofNat 32 (instSize * (L.code.length + L.data.length))⟩ := by
  have hfits := hmem.fits
  have hsum : blockListCountByte e.codeLast + blockListCountByte e.constLast
      = BitVec.ofNat 32 (instSize * (L.code.length + L.data.length)) := by
    rw [h.byteCountCode, blockListCountByte_eq, h.data_holds.words,
      ← BitVec.ofNat_add, ← Nat.mul_add]
  unfold assembleCode
  simp only [hsum]
  by_cases h0 : BitVec.ofNat 32
      (instSize * (L.code.length + L.data.length)) = 0#32
  · -- nothing was emitted
    have hn := congrArg BitVec.toNat h0
    rw [BitVec.toNat_ofNat, Nat.mod_eq_of_lt (by omega)] at hn
    simp only [instSize, BitVec.toNat_ofNat] at hn
    have hcode : L.emitted = [] := List.eq_nil_of_length_eq_zero (by
      rw [Listing.length_emitted]; omega)
    have hdata : L.data = [] := List.eq_nil_of_length_eq_zero (by omega)
    refine ⟨0, ?_⟩
    rw [if_pos h0, h0, hcode, hdata]
    rfl
  · rw [if_neg h0]
    have halloc := le_allocSize ps hfits
    obtain ⟨m, hm⟩ : ∃ m, (allocSize ps (BitVec.ofNat 32
          (instSize * (L.code.length + L.data.length)))).toNat / instSize
        = L.code.length + (L.data.length + m) := by
      refine ⟨(allocSize ps (BitVec.ofNat 32
        (instSize * (L.code.length + L.data.length)))).toNat / instSize
        - (L.code.length + L.data.length), ?_⟩
      simp only [instSize] at halloc ⊢
      omega
    refine ⟨m, ?_⟩
    rw [hm, List.replicate_add, List.replicate_add]
    have hcode := emitCodeBlock_eq (A := [])
      (B := List.replicate L.code.length 0#32)
      (C := List.replicate L.data.length 0#32 ++ List.replicate m 0#32)
      h.code (by simp) (by
        simp only [List.length_nil, List.length_replicate, instSize] at *
        omega)
    rw [List.nil_append, List.nil_append] at hcode
    have hdata := emitCodeBlock_eq (A := L.emitted)
      (B := List.replicate L.data.length 0#32)
      (C := List.replicate m 0#32) h.data_holds (by simp) (by
        simp only [Listing.length_emitted, List.length_replicate,
          instSize] at *
        omega)
    rw [Listing.length_emitted, List.append_assoc] at hdata
    have hbase : (0 : Word)
        = BitVec.ofNat 32 (instSize * ([] : List Word).length) := rfl
    rw [hbase, hcode]
    simp only [h.byteCountCode, hdata]

/-- The assembled image, cut to the returned size. -/
theorem assembled_image {L : Listing} (hmem : L.Placed) (z : Nat) :
    Code.image ⟨L.emitted ++ L.data ++ List.replicate z 0#32,
        BitVec.ofNat 32 (instSize * (L.code.length + L.data.length))⟩
      = L.emitted ++ L.data := by
  have hfits := hmem.fits
  unfold Code.image
  rw [BitVec.toNat_ofNat, Nat.mod_eq_of_lt (by omega),
    Nat.mul_div_cancel_left _ (by decide)]
  apply List.take_left'
  rw [List.length_append, Listing.length_emitted]

-- ================================================== the layout invariant

/-- A chain as `emit_code_block` needs it at any moment: full blocks
behind the head, and counts that add up to the counter. -/
def ChainCounts (cb : List CodeBufferBlock) (cur : Word) : Prop :=
  (∀ b ∈ cb.tail, b.cur = codebufferSize)
    ∧ (cb.map CodeBufferBlock.cur).sum = cur.toNat

/-- The run lays its code out: no store leaves its block and both chains
are in order after every call (`moments`), and the assembled image is
the instruction words in emission order and then the literals in
emission order (`image`). -/
structure LaidOut (ps : PageSize) (cs : List Call) (L : Listing) :
    Prop where
  moments : ∀ pre, pre <+: cs → ∃ e, run pre = some e
    ∧ ChainCounts e.codeLast e.cur ∧ ChainCounts e.constLast e.dataCur
  image : ∃ e code, run cs = some e ∧ assembleCode ps e = some code
    ∧ code.image = L.emitted ++ L.data
    ∧ code.retSize.toNat = instSize * (L.code.length + L.data.length)

/-- A chain in order has the counts its counter says. -/
theorem ChainHolds.counts {cb : List CodeBufferBlock} {ws : List Word}
    (h : ChainHolds cb ws) {cur : Word}
    (hcur : cur = BitVec.ofNat 32 ws.length) (hlt : ws.length < 2 ^ 32) :
    ChainCounts cb cur := by
  refine ⟨h.full, ?_⟩
  rw [sum_cur_eq, h.words, hcur, BitVec.toNat_ofNat, Nat.mod_eq_of_lt hlt]

/-- Both chains of a simulated emitter are in order. -/
theorem Sim.counts {e : Emitter} {L : Listing} (h : Sim e L)
    (hcode : L.code.length < 2 ^ 32) :
    ChainCounts e.codeLast e.cur ∧ ChainCounts e.constLast e.dataCur := by
  constructor
  · refine h.code.counts ?_ ?_
    · rw [h.cur, Listing.length_emitted]
    · rw [Listing.length_emitted]
      exact hcode
  · refine h.data_holds.counts h.dataCur ?_
    exact Nat.lt_of_le_of_lt h.data_le (by decide)

/-- Up to 512 literals the run lays its code out. -/
theorem laidOut_of_le (ps : PageSize) {cs : List Call} {L : Listing}
    (hL : listing cs = some L) (hmem : L.Placed)
    (hd : L.data.length ≤ codebufferSize) : LaidOut ps cs L := by
  have hfits := hmem.fits
  simp only [instSize] at hfits
  constructor
  · rintro pre ⟨post, rfl⟩
    obtain ⟨L₀, hL₀, hgrows⟩ := listing_prefix hL
    have hcode := hgrows.code.length_le
    have hdata := hgrows.data.length_le
    obtain ⟨e, he, hsim⟩ := run_eq_some hL₀ (Nat.le_trans hdata hd)
    exact ⟨e, he, hsim.counts (by omega)⟩
  · obtain ⟨e, he, hsim⟩ := run_eq_some hL hd
    obtain ⟨z, hz⟩ := assembleCode_eq ps hsim hmem
    refine ⟨e, _, he, hz, assembled_image hmem z, ?_⟩
    simp only [BitVec.toNat_ofNat, instSize]
    exact Nat.mod_eq_of_lt (by omega)

/-- Past 512 literals it does not: the run itself has left the literal
buffer. -/
theorem not_laidOut_of_lt (ps : PageSize) {cs : List Call} {L : Listing}
    (hL : listing cs = some L) (hd : codebufferSize < L.data.length) :
    ¬ LaidOut ps cs L := by
  intro h
  obtain ⟨e, -, he, -⟩ := h.image
  rw [run_eq_none hL hd] at he
  cases he

/-- The layout of the image holds for every run, however its calls are
interleaved, that emits at most 512 literals, and for no other. -/
theorem laidOut_iff (ps : PageSize) {cs : List Call} {L : Listing}
    (hL : listing cs = some L) (hmem : L.Placed) :
    LaidOut ps cs L ↔ L.data.length ≤ codebufferSize := by
  constructor
  · intro h
    by_contra hgt
    exact not_laidOut_of_lt ps hL (Nat.lt_of_not_le hgt) h
  · exact laidOut_of_le ps hL hmem

/-- Two words and a literal between them, laid out. -/
theorem laidOut_three :
    LaidOut .default
      [.movldrImm .condAl 0 1, .movldrImm .condAl 0 256,
        .insn (.bx .condAl agLr)]
      ⟨[.plain 0xe3a00001#32, .load .condAl 0 0, .plain 0xe12fff1e#32],
        [256#32], [.data 0]⟩ :=
  (laidOut_iff .default (by decide)
    (Listing.placed_of_fits (by decide))).mpr (by decide)

/-- A run of literal loads writes down that many literals. -/
theorem listing_replicate_movldr {cc : AgCond} {rd imm : Word}
    (h : needsLiteral imm = true) (n : Nat) :
    ∃ L, listing (List.replicate n (.movldrImm cc rd imm)) = some L
      ∧ L.code.length = n ∧ L.data.length = n := by
  induction n with
  | zero => exact ⟨Listing.empty, rfl, rfl, rfl⟩
  | succ n ih =>
      obtain ⟨L, hL, hcode, hdata⟩ := ih
      refine ⟨L.movldr cc rd imm, ?_, ?_, ?_⟩
      · rw [List.replicate_succ', listing_snoc, hL]
        rfl
      · simp [Listing.movldr, h, hcode]
      · simp [Listing.movldr, h, hdata]

/-- 513 literal loads are not laid out: the last literal is stored past
its block. -/
theorem not_laidOut_513 :
    ∃ L, listing (List.replicate 513 (.movldrImm .condAl 0 256)) = some L
      ∧ L.Placed
      ∧ ¬ LaidOut .default
          (List.replicate 513 (.movldrImm .condAl 0 256)) L := by
  obtain ⟨L, hL, hcode, hdata⟩ :=
    listing_replicate_movldr (show needsLiteral 256 = true by decide) 513
  refine ⟨L, hL, ?_, ?_⟩
  · apply Listing.placed_of_fits
    rw [hcode, hdata]
    decide
  · apply not_laidOut_of_lt .default hL
    rw [hdata]
    decide

end UdeBench.Ag
