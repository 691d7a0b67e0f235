/-
The emitter in memory does what the emitter on lists does, call by call.

`Rep m s e` relates a state in memory to an emitter: the heaps hold the
two chains, the two arrays and the strings, and nothing else, and `m` is
the mapping, if there is one. Every call keeps it (`Rep.exec`): the words
go where the lists say, and nothing is lost on the way, neither the block
a chain has outgrown nor the array a push has moved.
-/
import UdeBench.Ag.Memory
import UdeBench.Ag.Proofs.Resolve

namespace UdeBench.Ag.Memory

open A32 (Word)
open Store (Ptr Heap Fault Owns OutOfMemory headPtr load store malloc free)
open Npr.Arrays (Filled setElem)

variable (answers : Answers)

-- =================================================================== chains

/-- The numbers of a chain's blocks, and their words. -/
abbrev Cells := List (Ptr × CodeBufferBlock)

/-- The blocks, each with a pointer to the next. -/
abbrev chained : Cells → List (Ptr × Block) := Store.chained Block.mk

section
variable {bs : Heap Block} {l₁ l₂ : List (Ptr × Block)} {p : Ptr}

/-- A word stored in a block with room. -/
theorem storeWord_ok {B : Block} {val : Word} {words : CodeBufferBlock}
    (h : Owns bs (l₁ ++ (p, B) :: l₂))
    (hstore : B.words.store val = some words) :
    ∃ bs', storeWord bs (some p) val = .ok bs'
      ∧ Owns bs' (l₁ ++ (p, { B with words }) :: l₂) := by
  obtain ⟨bs', hbs', hown⟩ := h.store { B with words }
  refine ⟨bs', ?_, hown⟩
  have hload : load bs (some p) = .ok B := h.load (by simp)
  unfold storeWord
  rw [hload, ok_bind, hstore]
  exact hbs'

theorem storeWord_head {B : Block} {val : Word} {words : CodeBufferBlock}
    (h : Owns bs ((p, B) :: l₂)) (hstore : B.words.store val = some words) :
    ∃ bs', storeWord bs (some p) val = .ok bs'
      ∧ Owns bs' ((p, { B with words }) :: l₂) := by
  rw [← List.nil_append ((p, B) :: l₂)] at h
  exact storeWord_ok h hstore

end

-- ================================================================ the emitter

/-- The mapping, if there is one. -/
def Mapped (maps : Heap (List Word)) (code : Option Ptr) :
    Option (List Word) → Prop
  | none => code = none ∧ Owns maps []
  | some w => ∃ p, code = some p ∧ Owns maps [(p, w)]

/-- The state in memory is the emitter: the chains are `code` and `const`,
the label table is `ls` and its strings are `ts`. -/
structure Holds (code const : Cells) (ls : List MLabel)
    (ts : List (Ptr × String)) (s : Sys) (e : Emitter) : Prop where
  blocks : Owns s.blocks (chained code ++ chained const)
  codeLast : s.codeLast = headPtr code
  codeWords : code.map Prod.snd = e.codeLast
  constLast : s.constLast = headPtr const
  constWords : const.map Prod.snd = e.constLast
  labels : Filled s.labelArrays s.labels ls
  labelVals : ls.map MLabel.label = e.labels
  texts : Owns s.texts ts
  textPtrs : ts.map Prod.fst = ls.filterMap MLabel.labelStr
  refs : Filled s.refArrays s.labelRefs e.labelRefs
  cur : s.cur = e.cur
  dataCur : s.dataCur = e.dataCur

/-- A state in memory, the emitter it is, and the mapping. -/
def Rep (m : Option (List Word)) (s : Sys) (e : Emitter) : Prop :=
  (∃ code const ls ts, Holds code const ls ts s e)
    ∧ Mapped s.maps s.code m

variable {s : Sys} {e e' : Emitter} {m : Option (List Word)}

-- ================================================================= emission

/-- What `ag_emit4` does to the code chain. -/
theorem agEmit4_cases {val : Word} (h : Ag.agEmit4 e val = some e') :
    ∃ b bl, e.codeLast = b :: bl
      ∧ ((b.cur = codebufferSize ∧ ∃ words : CodeBufferBlock,
            CodeBufferBlock.store ⟨[], Nat.zero_le _⟩ val = some words
            ∧ e' = { e with codeLast := words :: b :: bl,
                            cur := e.cur + 1 })
        ∨ (b.cur ≠ codebufferSize ∧ ∃ words, b.store val = some words
            ∧ e' = { e with codeLast := words :: bl, cur := e.cur + 1 })) := by
  unfold Ag.agEmit4 at h
  cases hcode : e.codeLast with
  | nil =>
      rw [hcode] at h
      cases h
  | cons b bl =>
      refine ⟨b, bl, rfl, ?_⟩
      simp only [hcode] at h
      by_cases hfull : b.cur = codebufferSize
      · left
        rw [if_pos hfull, Ag.alloc1block, storeHead] at h
        refine ⟨hfull, ?_⟩
        split at h
        · cases h
        · next codeLast hstore =>
          split at hstore
          · cases hstore
          · next words hwords =>
            cases hstore
            cases h
            exact ⟨words, hwords, rfl⟩
      · right
        rw [if_neg hfull, storeHead] at h
        refine ⟨hfull, ?_⟩
        split at h
        · cases h
        · next codeLast hstore =>
          split at hstore
          · cases hstore
          · next words hwords =>
            cases hstore
            cases h
            exact ⟨words, hwords, rfl⟩

/-- What `ag_emit4_data` does to the literal chain; a full block has no
room. -/
theorem agEmit4Data_cases {val : Word}
    (h : Ag.agEmit4Data e val = some e') :
    ∃ b bl words, e.constLast = b :: bl ∧ b.cur ≠ codebufferSize
      ∧ b.store val = some words
      ∧ e' = { e with constLast := words :: bl,
                      dataCur := e.dataCur + 1 } := by
  unfold Ag.agEmit4Data at h
  cases hconst : e.constLast with
  | nil =>
      rw [hconst] at h
      cases h
  | cons b bl =>
      simp only [hconst] at h
      by_cases hfull : b.cur = codebufferSize
      · have hnone : b.store val = none := by
          rw [CodeBufferBlock.store, dif_neg (by omega)]
        simp only [if_pos hfull, storeHead, hnone] at h
        cases h
      · simp only [if_neg hfull, hconst, storeHead] at h
        split at h
        · cases h
        · next constLast hstore =>
          split at hstore
          · cases hstore
          · next words hwords =>
            cases hstore
            cases h
            exact ⟨b, bl, words, rfl, hfull, hwords, rfl⟩

/-- A chain that begins with a block. -/
theorem cells_cons {c : Cells} {b : CodeBufferBlock}
    {bl : List CodeBufferBlock} (h : c.map Prod.snd = b :: bl) :
    ∃ p c', c = (p, b) :: c' ∧ c'.map Prod.snd = bl := by
  obtain ⟨⟨p, b'⟩, c', rfl, hb, hc'⟩ := List.map_eq_cons_iff.mp h
  cases hb
  exact ⟨p, c', rfl, hc'⟩

/-- A block in front of the code chain, when its head is full. -/
theorem freshIfFull_full {code const : Cells} {B : Block}
    (hblocks : Owns s.blocks (chained code ++ chained const))
    (hlast : s.codeLast = headPtr code)
    (hfull : B.words.cur = codebufferSize) :
    Yields OutOfMemory (freshIfFull answers s B)
      fun s' => ∃ bs q, s' = { s with blocks := bs, codeLast := some q }
        ∧ Owns bs (chained ((q, ⟨[], Nat.zero_le _⟩) :: code)
            ++ chained const) := by
  unfold freshIfFull
  rw [if_pos hfull, hlast]
  refine (hblocks.malloc answers.blocks
    ⟨headPtr code, ⟨[], Nat.zero_le _⟩⟩).bind fun r hown => ?_
  exact .ok ⟨r.1, r.2, rfl, hown⟩

/-- `ag_emit4` in memory. -/
theorem Rep.emit4 (h : Rep m s e) {val : Word}
    (he : Ag.agEmit4 e val = some e') :
    Yields OutOfMemory (agEmit4 answers s val) (Rep m · e') := by
  obtain ⟨⟨code, const, ls, ts, hh⟩, hmap⟩ := h
  obtain ⟨b, bl, hlast, hcases⟩ := agEmit4_cases he
  obtain ⟨p, c, rfl, hc⟩ := cells_cons (hh.codeWords.trans hlast)
  have hload : load s.blocks s.codeLast = .ok ⟨headPtr c, b⟩ := by
    rw [hh.codeLast]
    exact hh.blocks.load_head
  have hcur : s.cur + 1 = e.cur + 1 := by rw [hh.cur]
  unfold agEmit4
  rw [hload]
  show Yields OutOfMemory (freshIfFull answers s ⟨headPtr c, b⟩ >>= _) _
  rcases hcases with ⟨hfull, words, hwords, rfl⟩ | ⟨hroom, words, hwords, rfl⟩
  · -- the new block is the head, and points to the full one
    refine (freshIfFull_full answers hh.blocks hh.codeLast hfull).bind ?_
    rintro _ ⟨bs, q, rfl, hown⟩
    obtain ⟨bs', hbs', hown'⟩ := storeWord_head hown hwords
    show Yields OutOfMemory (storeWord bs (some q) val >>= _) _
    rw [hbs']
    refine .ok ⟨⟨(q, words) :: (p, b) :: c, const, ls, ts, hown', rfl, ?_,
      hh.constLast, hh.constWords, hh.labels, hh.labelVals, hh.texts,
      hh.textPtrs, hh.refs, hcur, hh.dataCur⟩, hmap⟩
    rw [List.map_cons, List.map_cons, hc]
  · unfold freshIfFull
    rw [if_neg hroom]
    obtain ⟨bs', hbs', hown⟩ := storeWord_head hh.blocks hwords
    show Yields OutOfMemory (storeWord s.blocks s.codeLast val >>= _) _
    rw [hh.codeLast]
    show Yields OutOfMemory (storeWord s.blocks (some p) val >>= _) _
    rw [hbs']
    refine .ok ⟨⟨(p, words) :: c, const, ls, ts, hown, rfl, ?_,
      hh.constLast, hh.constWords, hh.labels, hh.labelVals, hh.texts,
      hh.textPtrs, hh.refs, hcur, hh.dataCur⟩, hmap⟩
    rw [List.map_cons, hc]

/-- `ag_emit4_data` in memory. -/
theorem Rep.emit4Data (h : Rep m s e) {val : Word}
    (he : Ag.agEmit4Data e val = some e') :
    Yields OutOfMemory (agEmit4Data answers s val) (Rep m · e') := by
  obtain ⟨⟨code, const, ls, ts, hh⟩, hmap⟩ := h
  obtain ⟨b, bl, words, hlast, hroom, hwords, rfl⟩ := agEmit4Data_cases he
  obtain ⟨p, c, rfl, hc⟩ := cells_cons (hh.constWords.trans hlast)
  have hload : load s.blocks s.constLast = .ok ⟨headPtr c, b⟩ := by
    rw [hh.constLast]
    exact hh.blocks.load
      (List.mem_append_right _ List.mem_cons_self)
  unfold agEmit4Data
  rw [hload]
  show Yields OutOfMemory (freshIfFull answers s ⟨headPtr c, b⟩ >>= _) _
  unfold freshIfFull
  rw [if_neg hroom]
  obtain ⟨bs', hbs', hown⟩ := storeWord_ok hh.blocks hwords
  show Yields OutOfMemory (storeWord s.blocks s.constLast val >>= _) _
  rw [hh.constLast]
  show Yields OutOfMemory (storeWord s.blocks (some p) val >>= _) _
  rw [hbs']
  refine .ok ⟨⟨code, (p, words) :: c, ls, ts, hown, hh.codeLast,
    hh.codeWords, rfl, ?_, hh.labels, hh.labelVals, hh.texts,
    hh.textPtrs, hh.refs, hh.cur, ?_⟩, hmap⟩
  · rw [List.map_cons, hc]
  · show s.dataCur + 1 = e.dataCur + 1
    rw [hh.dataCur]

-- =================================================================== labels

/-- Setting a label leaves the strings. -/
theorem filterMap_set_label {ls : List MLabel} {id : Nat} {x : MLabel}
    (hx : ls[id]? = some x) (l : Label) :
    (ls.set id { x with label := l }).filterMap MLabel.labelStr
      = ls.filterMap MLabel.labelStr := by
  induction ls generalizing id with
  | nil => rfl
  | cons y ls ih =>
      cases id with
      | zero =>
          cases hx
          rfl
      | succ id =>
          rw [List.set_cons_succ, List.filterMap_cons, List.filterMap_cons,
            ih hx]

/-- A label set in memory. -/
theorem Rep.setLabel (h : Rep m s e) {id : Nat} {l' : Label}
    (hl' : e.labels[id]? = some l') (l : Label) :
    ∃ s', Memory.setLabel s id l = .ok s'
      ∧ Rep m s' { e with labels := e.labels.set id l } := by
  obtain ⟨⟨code, const, ls, ts, hh⟩, hmap⟩ := h
  rw [← hh.labelVals, List.getElem?_map] at hl'
  obtain ⟨x, hx, rfl⟩ := Option.map_eq_some_iff.mp hl'
  obtain ⟨hid, -⟩ := List.getElem?_eq_some_iff.mp hx
  obtain ⟨arr, harr, hfilled⟩ :=
    hh.labels.setElem hid { x with label := l }
  refine ⟨{ s with labelArrays := arr }, ?_,
    ⟨code, const, ls.set id { x with label := l }, ts, hh.blocks,
      hh.codeLast, hh.codeWords, hh.constLast, hh.constWords,
      hfilled, ?_, hh.texts, ?_, hh.refs, hh.cur, hh.dataCur⟩, hmap⟩
  · unfold Memory.setLabel
    rw [hh.labels.elems, ok_bind, hx]
    show (setElem s.labelArrays s.labels id { x with label := l } >>= _) = _
    rw [harr]
    rfl
  · rw [List.map_set, hh.labelVals]
  · rw [filterMap_set_label hx]
    exact hh.textPtrs

theorem Rep.emitLabel (h : Rep m s e) {id : Nat}
    (he : Ag.agEmitLabel e id = some e') :
    ∃ s', agEmitLabel s id = .ok s' ∧ Rep m s' e' := by
  unfold Ag.agEmitLabel at he
  split at he
  · cases he
  · next l' hl' =>
    cases he
    have hcur : s.cur = e.cur := by
      obtain ⟨⟨_, _, _, _, hh⟩, -⟩ := h
      exact hh.cur
    unfold agEmitLabel
    rw [hcur]
    exact h.setLabel hl' _

theorem Rep.emitDataLabel (h : Rep m s e) {id : Nat}
    (he : Ag.agEmitDataLabel e id = some e') :
    ∃ s', agEmitDataLabel s id = .ok s' ∧ Rep m s' e' := by
  unfold Ag.agEmitDataLabel at he
  split at he
  · cases he
  · next l' hl' =>
    cases he
    have hcur : s.dataCur = e.dataCur := by
      obtain ⟨⟨_, _, _, _, hh⟩, -⟩ := h
      exact hh.dataCur
    unfold agEmitDataLabel
    rw [hcur]
    exact h.setLabel hl' _

/-- A name is kept as a string of its own. -/
theorem strdupName_yields {ts : List (Ptr × String)}
    (htexts : Owns s.texts ts) (name : Option String) :
    Yields OutOfMemory (strdupName answers s name)
      fun r => ∃ texts us, r.1 = { s with texts } ∧ Owns texts (ts ++ us)
        ∧ us.map Prod.fst = r.2.toList := by
  cases name with
  | none =>
      refine .ok ⟨s.texts, [], rfl, ?_, rfl⟩
      rwa [List.append_nil]
  | some name =>
      refine (htexts.malloc answers.texts name).bind fun r hown => ?_
      exact .ok ⟨r.1, [(r.2, name)], rfl,
        hown.perm (List.perm_append_singleton _ _).symm, rfl⟩

/-- `ag_alloc_label` in memory. -/
theorem Rep.allocLabel (h : Rep m s e) (name : Option String)
    (uninit : Word) :
    Yields OutOfMemory (agAllocLabel answers s name uninit)
      fun r => Rep m r.1 (Ag.agAllocLabel e uninit).1
        ∧ r.2 = (Ag.agAllocLabel e uninit).2 := by
  obtain ⟨⟨code, const, ls, ts, hh⟩, hmap⟩ := h
  unfold agAllocLabel
  refine (strdupName_yields answers hh.texts name).bind ?_
  rintro ⟨_, str⟩ ⟨texts, us, rfl, htexts, hus⟩
  refine (hh.labels.push answers.labels ⟨⟨.notEmitted, uninit⟩, str⟩).bind ?_
  rintro ⟨arr, va⟩ hfilled
  refine .ok ⟨⟨⟨code, const, ls ++ [⟨⟨.notEmitted, uninit⟩, str⟩], ts ++ us,
    hh.blocks, hh.codeLast, hh.codeWords, hh.constLast, hh.constWords,
    hfilled, ?_, htexts, ?_, hh.refs, hh.cur, hh.dataCur⟩, hmap⟩, ?_⟩
  · rw [List.map_append, hh.labelVals]
    rfl
  · rw [List.map_append, hus, List.filterMap_append, hh.textPtrs]
    cases str <;> rfl
  · show s.labels.nelem.toNat = e.labels.length
    rw [hh.labels.nelem, ← hh.labelVals, List.length_map]

/-- `ag_emit_new_label` in memory. -/
theorem Rep.newLabel (h : Rep m s e) (name : Option String) {id : Nat}
    (he : Ag.agEmitNewLabel e = some (e', id)) :
    Yields OutOfMemory (agEmitNewLabel answers s name)
      fun r => Rep m r.1 e' ∧ r.2 = id := by
  unfold Ag.agEmitNewLabel at he
  unfold agEmitNewLabel
  refine (h.allocLabel answers name 0).bind ?_
  rintro ⟨s₁, id'⟩ ⟨hs₁, rfl⟩
  simp only at he
  split at he
  · cases he
  · next e₁ he₁ =>
    cases he
    obtain ⟨s₂, hs₂, hrep⟩ := hs₁.emitLabel he₁
    show Yields OutOfMemory (agEmitLabel s₁ _ >>= _) _
    rw [hs₂]
    exact .ok ⟨hrep, rfl⟩

/-- `ag_emit_new_data_label` in memory. -/
theorem Rep.newDataLabel (h : Rep m s e) (name : Option String) {id : Nat}
    (he : Ag.agEmitNewDataLabel e = some (e', id)) :
    Yields OutOfMemory (agEmitNewDataLabel answers s name)
      fun r => Rep m r.1 e' ∧ r.2 = id := by
  unfold Ag.agEmitNewDataLabel at he
  unfold agEmitNewDataLabel
  refine (h.allocLabel answers name 0).bind ?_
  rintro ⟨s₁, id'⟩ ⟨hs₁, rfl⟩
  simp only at he
  split at he
  · cases he
  · next e₁ he₁ =>
    cases he
    obtain ⟨s₂, hs₂, hrep⟩ := hs₁.emitDataLabel he₁
    show Yields OutOfMemory (agEmitDataLabel s₁ _ >>= _) _
    rw [hs₂]
    exact .ok ⟨hrep, rfl⟩

-- ==================================================================== calls

/-- A reference pushed in memory. -/
theorem Rep.pushRef (h : Rep m s e) (ref : LabelRef) :
    Yields OutOfMemory (Memory.pushRef answers s ref)
      (Rep m · { e with labelRefs := e.labelRefs ++ [ref] }) := by
  obtain ⟨⟨code, const, ls, ts, hh⟩, hmap⟩ := h
  unfold Memory.pushRef
  refine (hh.refs.push answers.refs ref).bind ?_
  rintro ⟨arr, va⟩ hfilled
  exact .ok ⟨⟨code, const, ls, ts, hh.blocks, hh.codeLast, hh.codeWords,
    hh.constLast, hh.constWords, hh.labels, hh.labelVals, hh.texts,
    hh.textPtrs, hfilled, hh.cur, hh.dataCur⟩, hmap⟩

theorem Rep.cur (h : Rep m s e) : s.cur = e.cur := by
  obtain ⟨⟨_, _, _, _, hh⟩, -⟩ := h
  exact hh.cur

/-- `ag_emit_branch` in memory. -/
theorem Rep.branch (h : Rep m s e) {cc : AgCond} {l : Word} {dst : Nat}
    (he : Ag.agEmitBranch e cc l dst = some e') :
    Yields OutOfMemory (agEmitBranch answers s cc l dst) (Rep m · e') := by
  obtain ⟨⟨code, const, ls, ts, hh⟩, -⟩ := id h
  have hvals : e.labels[dst]? = ls[dst]?.map MLabel.label := by
    rw [← hh.labelVals, List.getElem?_map]
  unfold Ag.agEmitBranch at he
  unfold agEmitBranch
  rw [hh.labels.elems, ok_bind]
  rw [hvals] at he
  cases hx : ls[dst]? with
  | none =>
      rw [hx] at he
      cases he
  | some x =>
      rw [hx] at he
      simp only [Option.map_some] at he ⊢
      rw [h.cur]
      split at he
      · next hemitted =>
        rw [if_pos hemitted]
        exact h.emit4 answers he
      · next hpending =>
        rw [if_neg hpending]
        exact (h.pushRef answers _).bind fun s₁ hs₁ => hs₁.emit4 answers he

/-- `ag_emit_data_process_imm` in memory. -/
theorem Rep.dataProcessImm (h : Rep m s e) {cc : AgCond}
    {opc : AgDataProcessOpcode} {sb rd rn imm : Word}
    (he : (Ag.agEmitDataProcessImm e cc opc sb rd rn imm).map Prod.fst
      = some e') :
    Yields OutOfMemory (agEmitDataProcessImm answers s cc opc sb rd rn imm)
      (Rep m · e') := by
  rw [dataProcessImm_fst] at he
  unfold agEmitDataProcessImm
  split at he
  · next hwide =>
    rw [if_pos hwide]
    cases he
    exact .ok h
  · next hbyte =>
    rw [if_neg hbyte]
    exact h.emit4 answers he

/-- `ag_emit_movldr_imm` in memory. -/
theorem Rep.movldrImm (h : Rep m s e) {cc : AgCond} {rd imm : Word}
    (he : Ag.agEmitMovldrImm e cc rd imm = some e') :
    Yields OutOfMemory (agEmitMovldrImm answers s cc rd imm)
      (Rep m · e') := by
  unfold Ag.agEmitMovldrImm at he
  unfold agEmitMovldrImm
  split at he
  · next hlit =>
    rw [if_pos hlit]
    split at he
    · cases he
    · next e₁ id he₁ =>
      refine (h.newDataLabel answers none he₁).bind ?_
      rintro ⟨s₁, id'⟩ ⟨hs₁, rfl⟩
      simp only at he
      split at he
      · cases he
      · next e₂ he₂ =>
        refine (hs₁.pushRef answers _).bind fun s₂ hs₂ => ?_
        rw [show s₁.cur = e₁.cur from hs₁.cur] at hs₂
        exact (hs₂.emit4 answers he₂).bind fun s₃ hs₃ =>
          hs₃.emit4Data answers he
  · next hlit =>
    rw [if_neg hlit]
    split at he
    · next hpos =>
      rw [if_pos hpos]
      exact h.dataProcessImm answers he
    · next hneg =>
      rw [if_neg hneg]
      exact h.dataProcessImm answers he

/-- A call in memory. -/
theorem Rep.exec (h : Rep m s e) (c : Call × Option String)
    (he : c.1.exec e = some e') :
    Yields OutOfMemory (Memory.exec answers s c) (Rep m · e') := by
  obtain ⟨c, name⟩ := c
  cases c with
  | insn i =>
      rw [Call.exec, Insn.emit_eq] at he
      exact h.emit4 answers he
  | dataProcessImm cc opc sb rd rn imm => exact h.dataProcessImm answers he
  | branch cc l dst => exact h.branch answers he
  | movldrImm cc rd imm => exact h.movldrImm answers he
  | label id =>
      obtain ⟨s', hs', hrep⟩ := h.emitLabel he
      show Yields OutOfMemory (agEmitLabel s id) _
      rw [hs']
      exact .ok hrep
  | dataLabel id =>
      obtain ⟨s', hs', hrep⟩ := h.emitDataLabel he
      show Yields OutOfMemory (agEmitDataLabel s id) _
      rw [hs']
      exact .ok hrep
  | allocLabel uninit =>
      cases he
      exact (h.allocLabel answers name uninit).bind fun r hr => .ok hr.1
  | newLabel =>
      obtain ⟨⟨e₁, id⟩, he₁, rfl⟩ := Option.map_eq_some_iff.mp he
      exact (h.newLabel answers name he₁).bind fun r hr => .ok hr.1
  | newDataLabel =>
      obtain ⟨⟨e₁, id⟩, he₁, rfl⟩ := Option.map_eq_some_iff.mp he
      exact (h.newDataLabel answers name he₁).bind fun r hr => .ok hr.1

end UdeBench.Ag.Memory
