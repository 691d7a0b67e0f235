/-
The emitter refines the listing: after every run of calls the block
chains hold the words of the listing in order, the counters count them,
the label table is the listing's and the pending references are the
ones its items leave.

# The invariant

`ChainHolds cb ws` is what `emit_code_block` later depends on: the
chain, oldest block first, spells `ws`, and every block behind the head
is full. Both emit functions keep it for their own chain as long as the
literal buffer never opens a second block: `ag_emit4_data` would hang
the fresh block on the code chain. So the literal chain of a `Sim` is
one block, and a run leaves the simulation exactly at its 513th literal,
where the emitter stores past its array (`agEmit4Data_of_full`,
`run_eq_none`).

# The step lemma

`Sim.step` says what one call does: it is stuck exactly when it names an
unknown label or adds a literal to a full buffer, and otherwise moves to
the emitter of the next listing. Runs follow by induction on the calls
(`Sim.run`).
-/
import UdeBench.Ag.Listing

namespace UdeBench.Ag

open A32 (Word)

-- ========================================================== block chains

/-- The words of a chain, oldest block first. -/
def chainWords : List CodeBufferBlock → List Word
  | [] => []
  | b :: chain => chainWords chain ++ b.buffer

/-- A chain that spells `ws`, with only full blocks behind its head and
no block opened before it was needed. -/
structure ChainHolds (cb : List CodeBufferBlock) (ws : List Word) :
    Prop where
  ne_nil : cb ≠ []
  words : chainWords cb = ws
  full : ∀ b ∈ cb.tail, b.cur = codebufferSize
  opened : cb.tail ≠ [] → ∀ b ∈ cb.head?, 0 < b.cur

@[simp] theorem CodeBufferBlock.cur_mk (ws : List Word)
    (h : ws.length ≤ codebufferSize) :
    (CodeBufferBlock.mk ws h).cur = ws.length := rfl

theorem CodeBufferBlock.cur_le (b : CodeBufferBlock) :
    b.cur ≤ codebufferSize := b.hcap

/-- A fresh chain spells nothing. -/
theorem chainHolds_init : ChainHolds (alloc1block []) [] := by
  refine ⟨List.cons_ne_nil _ _, rfl, ?_, ?_⟩
  · intro b hb
    cases hb
  · intro h
    exact absurd rfl h

/-- A store into a block that has room. -/
theorem CodeBufferBlock.store_of_lt {b : CodeBufferBlock} (val : Word)
    (h : b.cur < codebufferSize) :
    ∃ b', b.store val = some b' ∧ b'.buffer = b.buffer ++ [val] := by
  unfold store
  rw [dif_pos h]
  exact ⟨_, rfl, rfl⟩

/-- A stored word counts. -/
theorem CodeBufferBlock.cur_pos {b : CodeBufferBlock} {ws : List Word}
    {val : Word} (h : b.buffer = ws ++ [val]) : 0 < b.cur := by
  unfold cur
  rw [h, List.length_append, List.length_singleton]
  omega

/-- A store into a full block leaves its array. -/
theorem CodeBufferBlock.store_of_full {b : CodeBufferBlock} (val : Word)
    (h : b.cur = codebufferSize) : b.store val = none := by
  unfold store
  rw [dif_neg (by omega)]

/-- `ag_emit4` appends its word: a fresh block is opened exactly when
the head is full, so only the head is ever partial. -/
theorem agEmit4_spec {e : Emitter} {ws : List Word} (val : Word)
    (h : ChainHolds e.codeLast ws) :
    ∃ cb, agEmit4 e val = some { e with codeLast := cb, cur := e.cur + 1 }
      ∧ ChainHolds cb (ws ++ [val]) := by
  obtain ⟨b, chain, hcb⟩ := List.exists_cons_of_ne_nil h.ne_nil
  obtain ⟨-, hwords, hfull, -⟩ := h
  rw [hcb, chainWords] at hwords
  rw [hcb, List.tail_cons] at hfull
  unfold agEmit4
  rw [hcb]
  by_cases hb : b.cur = codebufferSize
  · -- the head is full: a fresh block takes the word
    simp only [if_pos hb, alloc1block, storeHead]
    obtain ⟨b', hst, hbuf⟩ := CodeBufferBlock.store_of_lt
      (b := ⟨[], Nat.zero_le _⟩) val (by decide)
    rw [hst]
    refine ⟨b' :: b :: chain, rfl, List.cons_ne_nil _ _, ?_, ?_, ?_⟩
    · rw [chainWords, chainWords, hbuf, hwords]
      rfl
    · intro x hx
      rw [List.tail_cons] at hx
      rcases List.mem_cons.mp hx with rfl | hx
      · exact hb
      · exact hfull x hx
    · intro _ x hx
      cases hx
      exact CodeBufferBlock.cur_pos hbuf
  · -- the head has room
    simp only [if_neg hb, storeHead]
    obtain ⟨b', hst, hbuf⟩ := CodeBufferBlock.store_of_lt (b := b) val
      (by have := b.cur_le; omega)
    rw [hst]
    refine ⟨b' :: chain, rfl, List.cons_ne_nil _ _, ?_, hfull, ?_⟩
    · rw [chainWords, hbuf, ← List.append_assoc, hwords]
    · intro _ x hx
      cases hx
      exact CodeBufferBlock.cur_pos hbuf

/-- `ag_emit4_data` appends its word while the literal block has room. -/
theorem agEmit4Data_spec {e : Emitter} {b : CodeBufferBlock} (val : Word)
    (hb : e.constLast = [b]) (hlt : b.cur < codebufferSize) :
    ∃ b', agEmit4Data e val
        = some { e with constLast := [b'], dataCur := e.dataCur + 1 }
      ∧ b'.buffer = b.buffer ++ [val] := by
  obtain ⟨b', hst, hbuf⟩ := b.store_of_lt val hlt
  refine ⟨b', ?_, hbuf⟩
  simp only [agEmit4Data, hb, if_neg (Nat.ne_of_lt hlt), storeHead, hst]

/-- `ag_emit4_data` on a full literal block stores past its array: the
block it opened went to the code chain. -/
theorem agEmit4Data_of_full {e : Emitter} {b : CodeBufferBlock}
    (val : Word) (hb : e.constLast = [b]) (hfull : b.cur = codebufferSize) :
    agEmit4Data e val = none := by
  simp only [agEmit4Data, hb, if_pos hfull, storeHead,
    b.store_of_full val hfull]

-- ========================================================= the simulation

/-- The emitter stands where the listing does. -/
structure Sim (e : Emitter) (L : Listing) : Prop where
  code : ChainHolds e.codeLast L.emitted
  data : ∃ b, e.constLast = [b] ∧ b.buffer = L.data
  cur : e.cur = BitVec.ofNat 32 L.code.length
  dataCur : e.dataCur = BitVec.ofNat 32 L.data.length
  labels : e.labels = L.labels.map Binding.label
  refs : e.labelRefs = L.refs

/-- The simulation holds after `ag_emitter_init`. -/
theorem sim_init : Sim agEmitterInit Listing.empty where
  code := chainHolds_init
  data := ⟨_, rfl, rfl⟩
  cur := rfl
  dataCur := rfl
  labels := rfl
  refs := rfl

/-- The literal buffer of a simulated emitter is within its block. -/
theorem Sim.data_le {e : Emitter} {L : Listing} (h : Sim e L) :
    L.data.length ≤ codebufferSize := by
  obtain ⟨b, -, hbuf⟩ := h.data
  rw [← hbuf]
  exact b.hcap

/-- A label is in the table exactly when the listing knows it, and there
it stands where the listing says. -/
theorem Sim.labels_get {e : Emitter} {L : Listing} (h : Sim e L)
    (id : Nat) : e.labels[id]? = (L.labels[id]?).map Binding.label := by
  rw [h.labels, List.getElem?_map]

theorem Sim.labels_length {e : Emitter} {L : Listing} (h : Sim e L) :
    e.labels.length = L.labels.length := by
  rw [h.labels, List.length_map]

/-- A label the listing knows is in the table. -/
theorem Sim.labels_some {e : Emitter} {L : Listing} (h : Sim e L)
    {id : Nat} (hid : id < L.labels.length) :
    ∃ lab, e.labels[id]? = some lab := by
  rw [← h.labels_length] at hid
  exact ⟨_, List.getElem?_eq_getElem hid⟩

/-- Counters step together: the emitter's wrap, the listing's do not. -/
theorem ofNat_succ (n : Nat) :
    BitVec.ofNat 32 n + 1 = BitVec.ofNat 32 (n + 1) := by
  rw [BitVec.ofNat_add]
  rfl

/-- One word emitted, with the references already pushed for it. -/
theorem Sim.emit {e : Emitter} {L : Listing} (h : Sim e L) (it : Item)
    {labelRefs : List LabelRef}
    (hrefs : labelRefs = L.refs ++ (it.ref L.code.length).toList) :
    ∃ e', agEmit4 { e with labelRefs := labelRefs }
        (it.emitted L.code.length) = some e' ∧ Sim e' (L.emit it) := by
  obtain ⟨cb, hcb, hholds⟩ := agEmit4_spec
    (e := { e with labelRefs := labelRefs }) (it.emitted L.code.length)
    h.code
  refine ⟨_, hcb, ?_⟩
  constructor
  · rw [Listing.emitted_emit]
    exact hholds
  · exact h.data
  · show e.cur + 1 = _
    rw [h.cur, ofNat_succ]
    simp [Listing.emit]
  · exact h.dataCur
  · exact h.labels
  · rw [Listing.refs_emit]
    exact hrefs

/-- A plain word leaves no reference. -/
theorem Sim.emit_plain {e : Emitter} {L : Listing} (h : Sim e L)
    (w : Word) : ∃ e', agEmit4 e w = some e' ∧ Sim e' (L.emit (.plain w)) :=
  have hrefs : e.labelRefs
      = L.refs ++ ((Item.plain w).ref L.code.length).toList := by
    rw [h.refs]
    exact (List.append_nil _).symm
  h.emit (.plain w) hrefs

/-- Binding a label changes the table alone. -/
theorem Sim.bind {e : Emitter} {L : Listing} (h : Sim e L) (id : Nat)
    (b : Binding) :
    Sim { e with labels := e.labels.set id b.label } (L.bind id b) := by
  refine ⟨h.code, h.data, h.cur, h.dataCur, ?_, h.refs⟩
  show e.labels.set id b.label = (L.labels.set id b).map Binding.label
  rw [h.labels, List.map_set]

/-- A new label changes the table alone. -/
theorem Sim.newLabel {e : Emitter} {L : Listing} (h : Sim e L)
    (b : Binding) :
    Sim { e with labels := e.labels ++ [b.label] } (L.newLabel b) := by
  refine ⟨h.code, h.data, h.cur, h.dataCur, ?_, h.refs⟩
  show e.labels ++ [b.label] = (L.labels ++ [b]).map Binding.label
  rw [h.labels, List.map_append]
  rfl

-- ===================================================== one call at a time

/-- Every encoder behind an instruction is one `ag_emit4`. -/
theorem Insn.emit_eq (e : Emitter) (i : Insn) :
    i.emit e = agEmit4 e i.word := by
  cases i <;> rfl

/-- `ag_emit_data_process_imm`, its result dropped: nothing past eight
bits, else one word. -/
theorem dataProcessImm_fst (e : Emitter) (cc : AgCond)
    (opc : AgDataProcessOpcode) (s rd rn imm : Word) :
    (agEmitDataProcessImm e cc opc s rd rn imm).map Prod.fst
      = if imm &&& 0xffffff00#32 ≠ 0#32 then some e
        else agEmit4 e (dataProcessImmWord cc opc s rd rn imm) := by
  unfold agEmitDataProcessImm
  split
  · rfl
  · cases agEmit4 e (dataProcessImmWord cc opc s rd rn imm) <;> rfl

/-- A value below 256 passes the range check. -/
theorem fits_byte {x : Word} (h : x.toNat < 256) :
    x &&& 0xffffff00#32 = 0#32 := by
  have hx : x = (x.setWidth 8).setWidth 32 := by
    apply BitVec.eq_of_toNat_eq
    simp only [BitVec.toNat_setWidth]
    omega
  rw [hx]
  generalize x.setWidth 8 = y
  revert y
  decide

/-- The immediates of `ag_emit_movldr_imm` that need no literal, as
signed numbers. -/
theorem needsLiteral_iff (imm : Word) :
    needsLiteral imm = true ↔ imm.toInt < -256 ∨ 255 < imm.toInt := by
  have h255 : (255#32).toInt = 255 := rfl
  have h256 : (-256 : Word).toInt = -256 := rfl
  simp only [needsLiteral, Bool.or_eq_true, BitVec.slt, decide_eq_true_eq,
    h255, h256]
  omega

/-- A MOV immediate is 0 to 255. -/
theorem mov_imm_lt {imm : Word} (hl : needsLiteral imm = false)
    (hs : (0#32).sle imm = true) : imm.toNat < 256 := by
  have hn := (needsLiteral_iff imm).not.mp (by rw [hl]; decide)
  simp only [BitVec.sle, decide_eq_true_eq] at hs
  have h0 : (0#32).toInt = 0 := rfl
  have hint := BitVec.toInt_eq_toNat_cond imm
  have hlt := imm.isLt
  omega

/-- The complement of an MVN immediate is 0 to 255. -/
theorem mvn_imm_lt {imm : Word} (hl : needsLiteral imm = false)
    (hs : (0#32).sle imm = false) : (~~~imm).toNat < 256 := by
  have hn := (needsLiteral_iff imm).not.mp (by rw [hl]; decide)
  simp only [BitVec.sle, decide_eq_false_iff_not] at hs
  have h0 : (0#32).toInt = 0 := rfl
  have hint := BitVec.toInt_eq_toNat_cond imm
  have hlt := imm.isLt
  rw [BitVec.toNat_not]
  omega

/-- The outcome of a call that the listing can follow to `L'`: the next
emitter stands at `L'`, unless the literal buffer would overflow. -/
def Follows (o : Option Emitter) (L' : Listing) : Prop :=
  (L'.data.length ≤ codebufferSize → ∃ e', o = some e' ∧ Sim e' L')
    ∧ (codebufferSize < L'.data.length → o = none)

/-- An outcome that leaves the literals alone cannot overflow. -/
theorem Sim.follows {e e' : Emitter} {L L' : Listing} (h : Sim e L)
    {o : Option Emitter} (ho : o = some e') (h' : Sim e' L')
    (hdata : L'.data = L.data) : Follows o L' := by
  refine ⟨fun _ => ⟨e', ho, h'⟩, fun hgt => ?_⟩
  rw [hdata] at hgt
  have hle := h.data_le
  omega

/-- `ag_emit_branch` writes down the jump its label's state calls for. -/
theorem Sim.branch {e : Emitter} {L : Listing} (h : Sim e L) (cc : AgCond)
    (l : Word) {dst : Nat} {b : Binding} (hb : L.labels[dst]? = some b) :
    Follows (agEmitBranch e cc l dst) (L.emit (.jumpTo cc l dst b)) := by
  have hlab : e.labels[dst]? = some b.label := by rw [h.labels_get, hb]; rfl
  unfold agEmitBranch
  rw [hlab]
  cases b with
  | code n =>
      have hrefs : e.labelRefs
          = L.refs ++ ((Item.jump cc l dst (some n)).ref
              L.code.length).toList := by
        rw [h.refs]
        exact (List.append_nil _).symm
      obtain ⟨e', he', hsim⟩ := h.emit (.jump cc l dst (some n)) hrefs
      refine h.follows ?_ hsim rfl
      rw [← he']
      show agEmit4 e (branchWord cc l (BitVec.ofNat 32 n - e.cur - 2#32))
        = agEmit4 e _
      rw [h.cur]
      rfl
  | unbound u =>
      obtain ⟨e', he', hsim⟩ := h.emit (.jump cc l dst none) rfl
      refine h.follows ?_ hsim rfl
      rw [← he', ← h.refs, h.cur]
      rfl
  | data n =>
      obtain ⟨e', he', hsim⟩ := h.emit (.jump cc l dst none) rfl
      refine h.follows ?_ hsim rfl
      rw [← he', ← h.refs, h.cur]
      rfl

/-- `ag_emit_new_label` in one piece. -/
theorem agEmitNewLabel_eq (e : Emitter) :
    agEmitNewLabel e = some ({ e with
      labels := e.labels ++ [⟨.emitted, e.cur⟩] }, e.labels.length) := by
  simp [agEmitNewLabel, agAllocLabel, agEmitLabel]

/-- `ag_emit_new_data_label` in one piece. -/
theorem agEmitNewDataLabel_eq (e : Emitter) :
    agEmitNewDataLabel e = some ({ e with
      labels := e.labels ++ [⟨.emittedData, e.dataCur⟩] },
      e.labels.length) := by
  simp [agEmitNewDataLabel, agAllocLabel, agEmitDataLabel]

/-- `ag_emit_movldr_imm` with a literal: a label, a reference, the load,
and the literal if it has room. -/
theorem Sim.movldr_literal {e : Emitter} {L : Listing} (h : Sim e L)
    (cc : AgCond) (rd : Word) {imm : Word} (hl : needsLiteral imm = true) :
    Follows (agEmitMovldrImm e cc rd imm) (L.movldr cc rd imm) := by
  -- the label
  have hlabel : Sim { e with labels := e.labels ++ [⟨.emittedData, e.dataCur⟩] }
      (L.newLabel (.data L.data.length)) := by
    have hnew := h.newLabel (.data L.data.length)
    rw [Binding.label, ← h.dataCur] at hnew
    exact hnew
  -- the load and its reference
  obtain ⟨e₁, he₁, hload⟩ := hlabel.emit (.load cc rd L.labels.length) rfl
  obtain ⟨b, hb, hbuf⟩ := hload.data
  have hrun : agEmitMovldrImm e cc rd imm = agEmit4Data e₁ imm := by
    unfold agEmitMovldrImm
    rw [if_pos hl, agEmitNewDataLabel_eq]
    have hsame : agEmitLdrImm
        { e with
          labels := e.labels ++ [⟨.emittedData, e.dataCur⟩]
          labelRefs := e.labelRefs ++ [⟨.ldr, e.cur, e.labels.length⟩] }
        cc rd agPc 0 0 = some e₁ := by
      rw [← he₁, h.refs, h.cur, h.labels_length]
      rfl
    simp only [hsame]
  have hcode : (L.movldr cc rd imm).code = L.code ++ [.load cc rd L.labels.length]
      ∧ (L.movldr cc rd imm).data = L.data ++ [imm]
      ∧ (L.movldr cc rd imm).labels = L.labels ++ [.data L.data.length] := by
    unfold Listing.movldr
    rw [if_pos hl]
    exact ⟨rfl, rfl, rfl⟩
  obtain ⟨hc, hd, hlb⟩ := hcode
  have hlen : b.cur = L.data.length := by
    show b.buffer.length = _
    rw [hbuf]
    rfl
  rw [hrun]
  constructor
  · -- the literal has room
    intro hle
    rw [hd, List.length_append, List.length_singleton] at hle
    obtain ⟨b', he', hbuf'⟩ := agEmit4Data_spec imm hb (by omega)
    refine ⟨_, he', ?_⟩
    have hsame : (L.movldr cc rd imm).code
        = ((L.newLabel (.data L.data.length)).emit
            (.load cc rd L.labels.length)).code := hc
    obtain ⟨hem, hrf⟩ := Listing.emitted_congr hsame
    constructor
    · rw [hem]
      exact hload.code
    · refine ⟨b', rfl, ?_⟩
      rw [hbuf', hbuf, hd]
      rfl
    · rw [hc]
      exact hload.cur
    · show e₁.dataCur + 1 = _
      rw [hload.dataCur, ofNat_succ, hd, List.length_append]
      rfl
    · rw [hlb]
      exact hload.labels
    · rw [hrf]
      exact hload.refs
  · -- the block is full
    intro hgt
    rw [hd, List.length_append, List.length_singleton] at hgt
    have hle := h.data_le
    exact agEmit4Data_of_full imm hb (by omega)

/-- `ag_emit_movldr_imm`, all three encodings. -/
theorem Sim.movldr {e : Emitter} {L : Listing} (h : Sim e L) (cc : AgCond)
    (rd imm : Word) :
    Follows (agEmitMovldrImm e cc rd imm) (L.movldr cc rd imm) := by
  cases hl : needsLiteral imm with
  | true => exact h.movldr_literal cc rd hl
  | false =>
      cases hs : (0#32).sle imm with
      | true =>
          have hL : L.movldr cc rd imm
              = L.emit (.plain (dataProcessImmWord cc .mov 0 rd 0 imm)) := by
            simp [Listing.movldr, hl, hs]
          have hrun : agEmitMovldrImm e cc rd imm
              = agEmit4 e (dataProcessImmWord cc .mov 0 rd 0 imm) := by
            simp only [agEmitMovldrImm, hl, hs, if_true, agEmitMovImm]
            rw [dataProcessImm_fst, if_neg (not_not.mpr
              (fits_byte (mov_imm_lt hl hs)))]
            rfl
          obtain ⟨e', he', hsim⟩ := h.emit_plain
            (dataProcessImmWord cc .mov 0 rd 0 imm)
          rw [hL, hrun]
          exact h.follows he' hsim rfl
      | false =>
          have hL : L.movldr cc rd imm = L.emit
              (.plain (dataProcessImmWord cc .mvn 0 rd 0 (~~~imm))) := by
            simp [Listing.movldr, hl, hs]
          have hrun : agEmitMovldrImm e cc rd imm
              = agEmit4 e (dataProcessImmWord cc .mvn 0 rd 0 (~~~imm)) := by
            simp only [agEmitMovldrImm, hl, hs, agEmitMvnImm]
            rw [dataProcessImm_fst, if_neg (not_not.mpr
              (fits_byte (mvn_imm_lt hl hs)))]
            rfl
          obtain ⟨e', he', hsim⟩ := h.emit_plain
            (dataProcessImmWord cc .mvn 0 rd 0 (~~~imm))
          rw [hL, hrun]
          exact h.follows he' hsim rfl

/-- One call: stuck when the listing is, and otherwise following it. -/
theorem Sim.step {e : Emitter} {L : Listing} (h : Sim e L) (c : Call) :
    match L.step c with
    | none => c.exec e = none
    | some L' => Follows (c.exec e) L' := by
  cases c with
  | insn i =>
      obtain ⟨e', he', hsim⟩ := h.emit_plain i.word
      exact h.follows ((Insn.emit_eq e i).trans he') hsim rfl
  | dataProcessImm cc opc s rd rn imm =>
      simp only [Listing.step, Call.exec, dataProcessImm_fst]
      by_cases himm : imm &&& 0xffffff00#32 ≠ 0#32
      · rw [if_pos himm, if_pos himm]
        exact h.follows rfl h rfl
      · rw [if_neg himm, if_neg himm]
        obtain ⟨e', he', hsim⟩ := h.emit_plain
          (dataProcessImmWord cc opc s rd rn imm)
        exact h.follows he' hsim rfl
  | branch cc l dst =>
      cases hb : L.labels[dst]? with
      | none =>
          have hlab : e.labels[dst]? = none := by rw [h.labels_get, hb]; rfl
          simp only [Listing.step, hb, Call.exec, agEmitBranch, hlab]
      | some b =>
          simp only [Listing.step, hb]
          exact h.branch cc l hb
  | movldrImm cc rd imm => exact h.movldr cc rd imm
  | label id =>
      simp only [Listing.step]
      by_cases hid : id < L.labels.length
      · rw [if_pos hid]
        obtain ⟨lab, hget⟩ := h.labels_some hid
        refine h.follows ?_ (h.bind id (.code L.code.length)) rfl
        simp only [Call.exec, agEmitLabel, hget, h.cur, Binding.label]
      · rw [if_neg hid]
        have hget : e.labels[id]? = none := by
          rw [List.getElem?_eq_none_iff, h.labels_length]
          omega
        simp only [Call.exec, agEmitLabel, hget]
  | dataLabel id =>
      simp only [Listing.step]
      by_cases hid : id < L.labels.length
      · rw [if_pos hid]
        obtain ⟨lab, hget⟩ := h.labels_some hid
        refine h.follows ?_ (h.bind id (.data L.data.length)) rfl
        simp only [Call.exec, agEmitDataLabel, hget, h.dataCur,
          Binding.label]
      · rw [if_neg hid]
        have hget : e.labels[id]? = none := by
          rw [List.getElem?_eq_none_iff, h.labels_length]
          omega
        simp only [Call.exec, agEmitDataLabel, hget]
  | allocLabel uninit =>
      exact h.follows rfl (h.newLabel (.unbound uninit)) rfl
  | newLabel =>
      refine h.follows ?_ (h.newLabel (.code L.code.length)) rfl
      simp only [Call.exec, agEmitNewLabel_eq, Option.map_some, h.cur,
        Binding.label]
  | newDataLabel =>
      refine h.follows ?_ (h.newLabel (.data L.data.length)) rfl
      simp only [Call.exec, agEmitNewDataLabel_eq, Option.map_some,
        h.dataCur, Binding.label]

-- ================================================================== runs

/-- A run of calls: stuck when the listing is, and otherwise following
it. -/
theorem Sim.run (cs : List Call) :
    ∀ {e : Emitter} {L : Listing}, Sim e L →
      match L.run cs with
      | none => L.data.length ≤ codebufferSize → runFrom e cs = none
      | some L' => Follows (runFrom e cs) L' := by
  induction cs with
  | nil =>
      intro e L h
      exact h.follows rfl h rfl
  | cons c cs ih =>
      intro e L h
      have hstep := h.step c
      rw [Listing.run_cons]
      cases hL : L.step c with
      | none =>
          rw [hL] at hstep
          intro _
          simp only [runFrom, hstep]
      | some L₁ =>
          rw [hL] at hstep
          obtain ⟨hok, hfull⟩ := hstep
          by_cases hle : L₁.data.length ≤ codebufferSize
          · -- the call succeeds and the rest runs from its emitter
            obtain ⟨e₁, he₁, hsim⟩ := hok hle
            have hrest := ih hsim
            simp only [Option.bind_some, runFrom, he₁]
            cases hrun : L₁.run cs with
            | none =>
                rw [hrun] at hrest
                exact fun _ => hrest hle
            | some L' =>
                rw [hrun] at hrest
                exact hrest
          · -- the call was the literal that did not fit
            have hnone := hfull (Nat.lt_of_not_le hle)
            simp only [Option.bind_some, runFrom, hnone]
            cases hrun : L₁.run cs with
            | none => exact fun _ => True.intro
            | some L' =>
                have hmono := (Listing.run_grows hrun).data.length_le
                exact ⟨fun h' => by omega, fun _ => rfl⟩

/-- A run after `ag_emitter_init` reaches an emitter exactly when its
listing exists and has at most 512 literals, and then the two agree. -/
theorem run_eq_some {cs : List Call} {L : Listing}
    (hL : listing cs = some L) (hd : L.data.length ≤ codebufferSize) :
    ∃ e, run cs = some e ∧ Sim e L := by
  have h := sim_init.run cs
  rw [show Listing.empty.run cs = some L from hL] at h
  exact h.1 hd

/-- The 513th literal is stored past its buffer. -/
theorem run_eq_none {cs : List Call} {L : Listing}
    (hL : listing cs = some L) (hd : codebufferSize < L.data.length) :
    run cs = none := by
  have h := sim_init.run cs
  rw [show Listing.empty.run cs = some L from hL] at h
  exact h.2 hd

end UdeBench.Ag
