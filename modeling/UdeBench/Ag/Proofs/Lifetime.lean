/-
What the emitter allocates it gives back: whatever was emitted, and
whether or not the code was allocated, after `ag_emitter_fini` no block,
string, array or mapping is left, and nothing was freed twice or used when
it was gone.

`ag_alloc_code` frees each block as soon as it has copied it, and trades
the two chains for the mapping (`Rep.allocCode`); `ag_emitter_fini` frees
what `Rep` lists (`Rep.fini`).
-/
import UdeBench.Ag.Proofs.Ownership

namespace UdeBench.Ag.Memory

open A32 (Word)
open Store (Ptr Heap Fault Owns OutOfMemory headPtr length_chained load store
  malloc free)
open Npr.Arrays (elems turns varrayInit_yields varrayDiscard)

variable (answers : Answers)

-- ==================================================================== walks

section
variable {bs : Heap Block} {l : List (Ptr × Block)}

/-- `block_list_count_byte` walks the chain to its end. -/
theorem blockListCountByte_eq (h : Owns bs l) (c : Cells) (fuel : Nat)
    (byteCount : Word) (hsub : chained c ⊆ l) (hfuel : c.length ≤ fuel) :
    blockListCountByte bs fuel (headPtr c) byteCount
      = .ok ((c.map Prod.snd).foldl (fun n b =>
          n + BitVec.ofNat 32 (b.cur * instSize)) byteCount) := by
  induction c generalizing fuel byteCount with
  | nil => cases fuel <;> rfl
  | cons x c ih =>
      obtain ⟨p, b⟩ := x
      obtain ⟨fuel, rfl⟩ :=
        Nat.exists_eq_succ_of_ne_zero (Nat.ne_zero_of_lt hfuel)
      obtain ⟨hhead, htail⟩ := List.cons_subset.mp hsub
      have hload : load bs (some p) = .ok ⟨headPtr c, b⟩ := h.load hhead
      show (load bs (some p) >>= _) = _
      rw [hload]
      exact ih fuel _ htail (Nat.le_of_succ_le_succ hfuel)

/-- The counting loop of `emit_code_block` as well. -/
theorem countBlocks_eq (h : Owns bs l) (c : Cells) (fuel n : Nat)
    (hsub : chained c ⊆ l) (hfuel : c.length ≤ fuel) :
    countBlocks bs fuel (headPtr c) n = .ok (n + c.length) := by
  induction c generalizing fuel n with
  | nil => cases fuel <;> rfl
  | cons x c ih =>
      obtain ⟨p, b⟩ := x
      obtain ⟨fuel, rfl⟩ :=
        Nat.exists_eq_succ_of_ne_zero (Nat.ne_zero_of_lt hfuel)
      obtain ⟨hhead, htail⟩ := List.cons_subset.mp hsub
      have hload : load bs (some p) = .ok ⟨headPtr c, b⟩ := h.load hhead
      show (load bs (some p) >>= _) = _
      rw [hload]
      show countBlocks bs fuel (headPtr c) (n + 1) = _
      rw [ih fuel (n + 1) htail (Nat.le_of_succ_le_succ hfuel),
        List.length_cons, Nat.add_right_comm, Nat.add_assoc]

/-- The copying loop: each block is read before it is freed, and at the
end the chain is gone. -/
theorem copyBlocks_eq {blockCount base : Word} {c : Cells} {i : Nat}
    {ws ws' : List Word} (h : Owns bs (chained c ++ l))
    (hcopy : emitCodeBlockFrom blockCount base ws i (c.map Prod.snd)
      = some ws') :
    ∃ bs', copyBlocks blockCount base c.length i ws bs (headPtr c)
        = .ok (ws', bs') ∧ Owns bs' l := by
  induction c generalizing i ws bs with
  | nil =>
      cases hcopy
      exact ⟨bs, rfl, h⟩
  | cons x c ih =>
      obtain ⟨p, b⟩ := x
      rw [List.map_cons, emitCodeBlockFrom] at hcopy
      simp only at hcopy
      split at hcopy
      · cases hcopy
      · next ws₁ hws₁ =>
        obtain ⟨bs₁, hfree, hown⟩ := h.free_head
        obtain ⟨bs', hbs', hown'⟩ := ih hown hcopy
        refine ⟨bs', ?_, hown'⟩
        have hload : load bs (some p) = .ok ⟨headPtr c, b⟩ := h.load_head
        show (load bs (some p) >>= _) = _
        rw [hload, ok_bind]
        simp only
        rw [hws₁]
        show (free bs p >>= _) = _
        rw [hfree]
        exact hbs'

/-- `emit_code_block`. -/
theorem emitCodeBlock_eq {base : Word} {c : Cells} {ws ws' : List Word}
    (h : Owns bs (chained c ++ l))
    (hcopy : Ag.emitCodeBlock ws (c.map Prod.snd) base = some ws') :
    ∃ bs', emitCodeBlock ws bs (headPtr c) base = .ok (ws', bs')
      ∧ Owns bs' l := by
  unfold Ag.emitCodeBlock at hcopy
  rw [List.length_map] at hcopy
  obtain ⟨bs', hbs', hown⟩ := copyBlocks_eq h hcopy
  have hlen := h.length_le
  rw [List.length_append, length_chained] at hlen
  refine ⟨bs', ?_, hown⟩
  unfold emitCodeBlock
  rw [countBlocks_eq h c (bs.length + 1) 0 (List.subset_append_left _ _)
    (by omega), Nat.zero_add]
  exact hbs'

/-- `free_chain`: every block once. -/
theorem freeChain_eq {c : Cells} (fuel : Nat)
    (h : Owns bs (chained c ++ l)) (hfuel : c.length ≤ fuel) :
    ∃ bs', freeChain fuel bs (headPtr c) = .ok bs' ∧ Owns bs' l := by
  induction c generalizing fuel bs with
  | nil => exact ⟨bs, by cases fuel <;> rfl, h⟩
  | cons x c ih =>
      obtain ⟨p, b⟩ := x
      obtain ⟨fuel, rfl⟩ :=
        Nat.exists_eq_succ_of_ne_zero (Nat.ne_zero_of_lt hfuel)
      obtain ⟨bs₁, hfree, hown⟩ := h.free_head
      obtain ⟨bs', hbs', hown'⟩ :=
        ih fuel hown (Nat.le_of_succ_le_succ hfuel)
      refine ⟨bs', ?_, hown'⟩
      have hload : load bs (some p) = .ok ⟨headPtr c, b⟩ := h.load_head
      show (load bs (some p) >>= _) = _
      rw [hload]
      show (free bs p >>= _) = _
      rw [hfree]
      exact hbs'

end

/-- The strings of the labels, each freed once. -/
theorem freeTexts_eq {ls : List MLabel} {texts : Heap String}
    {ts l : List (Ptr × String)} (h : Owns texts (ts ++ l))
    (hptrs : ts.map Prod.fst = ls.filterMap MLabel.labelStr) :
    ∃ texts', freeTexts texts ls = .ok texts' ∧ Owns texts' l := by
  unfold freeTexts
  induction ls generalizing texts ts with
  | nil =>
      rw [List.filterMap_nil, List.map_eq_nil_iff] at hptrs
      subst hptrs
      exact ⟨texts, rfl, h⟩
  | cons x ls ih =>
      rw [List.foldlM_cons]
      cases hx : x.labelStr with
      | none =>
          rw [List.filterMap_cons_none hx] at hptrs
          exact ih h hptrs
      | some p =>
          rw [List.filterMap_cons_some hx] at hptrs
          obtain ⟨⟨q, t⟩, ts', rfl, rfl, hts'⟩ :=
            List.map_eq_cons_iff.mp hptrs
          obtain ⟨texts₁, hfree, hown⟩ := h.free_head
          obtain ⟨texts', htexts', hown'⟩ := ih hown hts'
          refine ⟨texts', ?_, hown'⟩
          show (free texts q >>= _) = _
          rw [hfree]
          exact htexts'

-- =============================================================== allocation

variable {s : Sys} {e e' : Emitter}

/-- The bytes of both chains. -/
def byteCount (e : Emitter) : Word :=
  Ag.blockListCountByte e.codeLast + Ag.blockListCountByte e.constLast

/-- What `ag_alloc_code` does: nothing, or two copies and the patches. -/
theorem agAllocCode_cases {ps : PageSize} {code : Code}
    (h : Ag.agAllocCode ps e = some (code, e')) :
    (byteCount e = 0#32 ∧ code = ⟨[], 0⟩ ∧ e' = e) ∨
    (byteCount e ≠ 0#32 ∧ ∃ p₁ p₂ p₃,
      Ag.emitCodeBlock (List.replicate
          ((allocSize ps (byteCount e)).toNat / instSize) 0#32)
        e.codeLast 0 = some p₁
      ∧ Ag.emitCodeBlock p₁ e.constLast
          (Ag.blockListCountByte e.codeLast) = some p₂
      ∧ resolveLabels (Ag.blockListCountByte e.codeLast) e.labels p₂
          e.labelRefs = some p₃
      ∧ code = ⟨p₃, byteCount e⟩
      ∧ e' = { e with codeLast := [], constLast := [] }) := by
  unfold Ag.agAllocCode assembleCode at h
  by_cases hzero : byteCount e = 0#32
  · left
    simp only [if_pos (show Ag.blockListCountByte e.codeLast
      + Ag.blockListCountByte e.constLast = 0#32 from hzero)] at h
    cases h
    exact ⟨hzero, rfl, rfl⟩
  · right
    refine ⟨hzero, ?_⟩
    simp only [if_neg (show ¬ Ag.blockListCountByte e.codeLast
      + Ag.blockListCountByte e.constLast = 0#32 from hzero)] at h
    split at h
    · cases h
    · next c hc =>
      split at hc
      · cases hc
      · next p₁ hp₁ =>
        split at hc
        · cases hc
        · next p₂ hp₂ =>
          cases hc
          simp only [if_neg (show ¬ Ag.blockListCountByte e.codeLast
            + Ag.blockListCountByte e.constLast = 0#32 from hzero)] at h
          split at h
          · cases h
          · next p₃ hp₃ =>
            cases h
            exact ⟨p₁, p₂, p₃, hp₁, hp₂, hp₃, rfl, rfl⟩

/-- A chain's bytes, counted in memory. -/
theorem Holds.count_code {code const : Cells} {ls : List MLabel}
    {ts : List (Ptr × String)} (h : Holds code const ls ts s e) :
    blockListCountByte s.blocks (s.blocks.length + 1) s.codeLast 0
      = .ok (Ag.blockListCountByte e.codeLast) := by
  have hlen := h.blocks.length_le
  rw [List.length_append, length_chained] at hlen
  rw [h.codeLast, blockListCountByte_eq h.blocks code _ 0
    (List.subset_append_left _ _) (by omega), h.codeWords]
  rfl

theorem Holds.count_const {code const : Cells} {ls : List MLabel}
    {ts : List (Ptr × String)} (h : Holds code const ls ts s e) :
    blockListCountByte s.blocks (s.blocks.length + 1) s.constLast 0
      = .ok (Ag.blockListCountByte e.constLast) := by
  have hlen := h.blocks.length_le
  rw [List.length_append, length_chained, length_chained] at hlen
  rw [h.constLast, blockListCountByte_eq h.blocks const _ 0
    (List.subset_append_right _ _) (by omega), h.constWords]
  rfl

/-- Nothing emitted, nothing done. -/
theorem Rep.allocCode_zero (ps : PageSize) {m : Option (List Word)}
    (h : Rep m s e) (hzero : byteCount e = 0#32) :
    agAllocCode ps s = .ok (s, none, 0) := by
  obtain ⟨⟨code, const, ls, ts, hh⟩, -⟩ := h
  show (blockListCountByte s.blocks (s.blocks.length + 1) s.codeLast 0
    >>= _) = _
  rw [hh.count_code]
  show (blockListCountByte s.blocks _ s.constLast 0 >>= _) = _
  rw [hh.count_const]
  show (if byteCount e = 0#32 then _ else _) = _
  rw [if_pos hzero]

/-- The blocks are traded for the mapping. -/
theorem Rep.allocCode (ps : PageSize) (h : Rep none s e) {code : Code}
    (hcode : Ag.agAllocCode ps e = some (code, e'))
    (hsome : byteCount e ≠ 0#32) :
    ∃ s' p, agAllocCode ps s = .ok (s', some p, code.retSize)
      ∧ load s'.maps (some p) = .ok code.mapping
      ∧ Rep (some code.mapping) s' e' := by
  obtain ⟨hzero, -⟩ | ⟨-, p₁, p₂, p₃, hp₁, hp₂, hp₃, rfl, rfl⟩ :=
    agAllocCode_cases hcode
  · exact absurd hzero hsome
  obtain ⟨⟨cc, dc, ls, ts, hh⟩, hnone, hmaps⟩ := h
  rw [← hh.codeWords] at hp₁
  rw [← hh.constWords] at hp₂
  rw [← hh.labelVals] at hp₃
  -- the two copies, and what they leave
  obtain ⟨bs₁, hbs₁, hown₁⟩ := emitCodeBlock_eq hh.blocks hp₁
  rw [← List.append_nil (chained dc)] at hown₁
  obtain ⟨bs₂, hbs₂, hown₂⟩ := emitCodeBlock_eq hown₁ hp₂
  -- the mapping is new
  have hmap : Owns (s.maps ++ [some p₃]) [(s.maps.length, p₃)] :=
    hmaps.concat p₃
  refine ⟨{ s with
      blocks := bs₂, maps := s.maps ++ [some p₃], codeLast := none,
      constLast := none, code := some s.maps.length,
      codeSize := allocSize ps (byteCount e) }, s.maps.length, ?_,
    hmap.load (List.mem_singleton.mpr rfl),
    ⟨[], [], ls, ts, hown₂, rfl, rfl, rfl, rfl, hh.labels, hh.labelVals,
      hh.texts, hh.textPtrs, hh.refs, hh.cur, hh.dataCur⟩,
    s.maps.length, rfl, hmap⟩
  show (blockListCountByte s.blocks (s.blocks.length + 1) s.codeLast 0
    >>= _) = _
  rw [hh.count_code]
  show (blockListCountByte s.blocks _ s.constLast 0 >>= _) = _
  rw [hh.count_const]
  show (if byteCount e = 0#32 then _ else _) = _
  rw [if_neg hsome]
  show (emitCodeBlock (List.replicate ((allocSize ps
    (byteCount e)).toNat / instSize) 0#32) s.blocks s.codeLast 0 >>= _) = _
  rw [hh.codeLast, hbs₁]
  show (emitCodeBlock p₁ bs₁ s.constLast _ >>= _) = _
  rw [hh.constLast, hbs₂]
  show (elems s.labelArrays s.labels >>= _) = _
  rw [hh.labels.elems]
  show (elems s.refArrays s.labelRefs >>= _) = _
  have hlt := hh.refs.lt
  rw [hh.refs.elems, ok_bind, hh.refs.take_turns (by omega), hp₃]
  rfl

-- ================================================================== the end

/-- Nothing is left. -/
structure Freed (s : Sys) : Prop where
  blocks : Owns s.blocks []
  texts : Owns s.texts []
  labelArrays : Owns s.labelArrays []
  refArrays : Owns s.refArrays []
  maps : Owns s.maps []

/-- The mapping is unmapped, if there is one. -/
theorem Mapped.munmap {m : Option (List Word)}
    (h : Mapped s.maps s.code m) :
    ∃ maps, munmapCode s = .ok maps ∧ Owns maps [] := by
  unfold munmapCode
  cases m with
  | none =>
      obtain ⟨hcode, hown⟩ := h
      rw [hcode]
      exact ⟨s.maps, rfl, hown⟩
  | some w =>
      obtain ⟨p, hcode, hown⟩ := h
      rw [hcode]
      exact hown.free_head

/-- `ag_emitter_fini` leaves nothing. -/
theorem Rep.fini {m : Option (List Word)} (h : Rep m s e) :
    ∃ s', agEmitterFini s = .ok s' ∧ Freed s' := by
  obtain ⟨⟨code, const, ls, ts, hh⟩, hmap⟩ := h
  obtain ⟨maps, hmaps, hown⟩ := hmap.munmap
  have hlen := hh.blocks.length_le
  rw [List.length_append, length_chained, length_chained] at hlen
  have hblocks := hh.blocks
  rw [← List.append_nil (chained const)] at hblocks
  obtain ⟨bs₁, hbs₁, hown₁⟩ := freeChain_eq (s.blocks.length + 1)
    hblocks (by omega)
  obtain ⟨bs₂, hbs₂, hown₂⟩ := freeChain_eq (s.blocks.length + 1)
    hown₁ (by omega)
  have htexts := hh.texts
  rw [← List.append_nil ts] at htexts
  obtain ⟨texts, htexts', hown₃⟩ := freeTexts_eq htexts hh.textPtrs
  obtain ⟨arr, harr, hown₄⟩ := hh.labels.discard
  obtain ⟨refs, hrefs, hown₅⟩ := hh.refs.discard
  refine ⟨{ s with
      maps, blocks := bs₂, texts, labelArrays := arr, refArrays := refs },
    ?_, ⟨hown₂, hown₃, hown₄, hown₅, hown⟩⟩
  unfold agEmitterFini
  rw [hmaps]
  show (freeChain (s.blocks.length + 1) s.blocks s.codeLast >>= _) = _
  rw [hh.codeLast, hbs₁]
  show (freeChain (s.blocks.length + 1) bs₁ s.constLast >>= _) = _
  rw [hh.constLast, hbs₂]
  show (elems s.labelArrays s.labels >>= _) = _
  have hlt := hh.labels.lt
  rw [hh.labels.elems]
  show (freeTexts s.texts (ls.take (turns s.labels.nelem)) >>= _) = _
  rw [hh.labels.take_turns (by omega), htexts']
  show (varrayDiscard s.labelArrays s.labels >>= _) = _
  rw [harr]
  show (varrayDiscard s.refArrays s.labelRefs >>= _) = _
  rw [hrefs]
  rfl

-- ==================================================================== runs

/-- A new emitter. -/
theorem init_rep :
    Yields OutOfMemory (agEmitterInit answers)
      (Rep none · Ag.agEmitterInit) := by
  unfold agEmitterInit
  refine (Owns.empty.malloc answers.blocks _).bind fun r₁ h₁ => ?_
  refine (h₁.malloc answers.blocks _).bind fun r₂ h₂ => ?_
  refine (varrayInit_yields answers.labels (by decide) (by decide)
    (by decide)).bind fun a₁ ha₁ => ?_
  refine (varrayInit_yields answers.refs (by decide) (by decide)
    (by decide)).bind fun a₂ ha₂ => ?_
  refine .ok ⟨⟨[(r₁.2, ⟨[], Nat.zero_le _⟩)], [(r₂.2, ⟨[], Nat.zero_le _⟩)],
    [], [], h₂.perm (List.Perm.swap _ _ _), rfl, rfl, rfl, rfl, ha₁, rfl,
    Owns.empty, rfl, ha₂, rfl, rfl⟩, rfl, Owns.empty⟩

/-- A run of calls in memory. -/
theorem Rep.calls (cs : List (Call × Option String))
    {m : Option (List Word)} (h : Rep m s e)
    (he : runFrom e (cs.map Prod.fst) = some e') :
    Yields OutOfMemory (cs.foldlM (Memory.exec answers) s)
      (Rep m · e') := by
  induction cs generalizing s e with
  | nil =>
      cases he
      exact .ok h
  | cons c cs ih =>
      rw [List.map_cons, runFrom] at he
      rw [List.foldlM_cons]
      split at he
      · cases he
      · next e₁ he₁ =>
        exact (h.exec answers c he₁).bind fun s₁ hs₁ => ih hs₁ he

/-- A run of calls after `ag_emitter_init`. -/
theorem run_rep {cs : List (Call × Option String)}
    (he : Ag.run (cs.map Prod.fst) = some e) :
    Yields OutOfMemory (run answers cs) (Rep none · e) := by
  unfold run
  exact (init_rep answers).bind fun s hs => hs.calls answers cs he

/-- The whole life of an emitter in memory: it gives everything back, with
its code allocated or without, and the code is the listing's image. -/
theorem emitter_lifetime (ps : PageSize) {cs : List (Call × Option String)}
    {L : Listing} (hL : listing (cs.map Prod.fst) = some L)
    (hmem : L.Placed) (hdata : L.data.length ≤ codebufferSize) :
    Yields OutOfMemory (run answers cs) fun s =>
      (∃ s', agEmitterFini s = .ok s' ∧ Freed s')
      ∧ ∃ s₁ p n, agAllocCode ps s = .ok (s₁, p, n)
        ∧ n.toNat = instSize * L.image.length
        ∧ (p = none ↔ L.image = [])
        ∧ (∀ q, p = some q → ∃ w, load s₁.maps (some q) = .ok w
            ∧ w.take L.image.length = L.image)
        ∧ ∃ s', agEmitterFini s₁ = .ok s' ∧ Freed s' := by
  obtain ⟨e, he, hsim⟩ := run_eq_some hL hdata
  obtain ⟨code, e', hcode, himage, hsize⟩ :=
    agAllocCode_eq ps hsim (labelsKnown hL) hmem
  rw [← Listing.length_image] at hsize
  refine (run_rep answers he).mono fun s hs => ⟨hs.fini, ?_⟩
  rcases agAllocCode_cases hcode with ⟨hzero, rfl, rfl⟩ | ⟨hsome, hrest⟩
  · have hempty : L.image = [] := by
      refine List.eq_nil_of_length_eq_zero ?_
      simp only [instSize] at hsize
      simpa using hsize
    refine ⟨s, none, 0, hs.allocCode_zero ps hzero, hsize,
      ⟨fun _ => hempty, fun _ => rfl⟩, ?_, hs.fini⟩
    intro q hq
    cases hq
  · obtain ⟨s₁, p, hs₁, hload, hrep⟩ := hs.allocCode ps hcode hsome
    have hret : code.retSize = byteCount e := by
      obtain ⟨_, _, _, -, -, -, rfl, -⟩ := hrest
      rfl
    refine ⟨s₁, some p, code.retSize, hs₁, hsize, ⟨?_, ?_⟩, ?_, hrep.fini⟩
    · intro hp
      cases hp
    · intro hempty
      rw [hempty, hret] at hsize
      exact absurd (BitVec.eq_of_toNat_eq hsize) hsome
    · rintro q hq
      cases hq
      refine ⟨code.mapping, hload, ?_⟩
      have hquot : code.retSize.toNat / instSize = L.image.length := by
        rw [hsize, Nat.mul_div_cancel_left _ (by decide)]
      rw [← hquot]
      exact himage

/-- A named label, a literal and a branch, with memory enough. -/
theorem emitter_lifetime_named :
    ∃ s, run ⟨fun _ => true, fun _ => true, fun _ => true, fun _ => true⟩
        [(.newLabel, some "top"), (.movldrImm .condAl 0 256, none),
          (.branch .condAl 0 0, none)] = .ok s
      ∧ (∃ s', agEmitterFini s = .ok s' ∧ Freed s')
      ∧ ∃ s₁ p n, agAllocCode .default s = .ok (s₁, some p, n)
        ∧ ∃ s', agEmitterFini s₁ = .ok s' ∧ Freed s' := by
  obtain ⟨s, hs⟩ := exists_ok (show (run ⟨fun _ => true, fun _ => true,
    fun _ => true, fun _ => true⟩
      [(.newLabel, some "top"), (.movldrImm .condAl 0 256, none),
        (.branch .condAl 0 0, none)]).isOk = true from rfl)
  have hlife := (emitter_lifetime _ .default (L := ⟨[.load .condAl 0 1,
    .jump .condAl 0 0 (some 0)], [256#32], [.code 0, .data 0]⟩) (by decide)
    (Listing.placed_of_fits (by decide)) (by decide)).of_ok hs
  obtain ⟨hfini, s₁, p, n, hcode, -, hp, -, hfini₁⟩ := hlife
  cases p with
  | none => exact absurd (hp.mp rfl) (by decide)
  | some p => exact ⟨s, hs, hfini, s₁, p, n, hcode, hfini₁⟩

end UdeBench.Ag.Memory
