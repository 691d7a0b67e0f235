/-
What a patch and an out-of-range immediate may touch: when the offset
arithmetic stays in its field.

Both masking sites take 13 bits where the diagram has 12. The extra bit
falls on the low bit of Rt, which it sets: it does no harm where it is
clear, or where Rt is odd already. Branches are masked as they should be
and never spill.
-/
import UdeBench.Ag.Proofs.Literal

namespace UdeBench.Ag

open A32 (Word)
open Bits

-- ============================================================= the patches

/-- The bits of an instruction a patch must keep: all but the 24 offset
bits of a branch, all but the U bit and the 12 offset bits of a literal
load. -/
def LabelrefType.kept : LabelrefType → Word
  | branch => 0xff000000
  | ldr => 0xff7ff000

/-- The patches of `refs` turn the image `before` into `after` and touch
offset fields only. -/
structure PatchesOffsets (refs : List LabelRef)
    (before after : List Word) : Prop where
  field : ∀ lr ∈ refs, ∃ w w', before[lr.instOffset.toNat]? = some w
    ∧ after[lr.instOffset.toNat]? = some w'
    ∧ w' &&& lr.type.kept = w &&& lr.type.kept
  rest : ∀ i, (∀ lr ∈ refs, lr.instOffset.toNat ≠ i) →
    after[i]? = before[i]?

/-- A branch patch keeps all but the offset. -/
theorem patchBranch_kept (w d : Word) :
    patchBranch w d &&& LabelrefType.branch.kept
      = w &&& LabelrefType.branch.kept := by
  have hoff : (0x00ffffff#32 : Word) &&& 0xff000000#32 = 0#32 := by decide
  show (w &&& 0xff000000#32 ||| d &&& 0x00ffffff#32) &&& 0xff000000#32 = _
  rw [BitVec.and_or_distrib_right, BitVec.and_assoc, BitVec.and_self,
    BitVec.and_assoc, hoff, BitVec.and_zero, BitVec.or_zero]
  rfl

/-- A literal patch keeps all but the offset unless the thirteenth bit
of the distance falls on a clear bit. -/
theorem patchLdr_kept_iff (w d : Word) :
    patchLdr w d &&& LabelrefType.ldr.kept = w &&& LabelrefType.ldr.kept
      ↔ ((d * 4#32).getLsbD 12 = true → w.getLsbD 12 = true) := by
  have hhigh : ((~~~0#32) <<< 12 : Word) &&& 0xff7ff000#32
      = 0xff7ff000#32 := by decide
  have hlow : (0x001fff#32 : Word) &&& 0xff7ff000#32
      = BitVec.twoPow 32 12 := by decide
  have hbit : (w &&& 0xff7ff000#32).getLsbD 12 = w.getLsbD 12 := by
    rw [BitVec.getLsbD_and]
    simp
  rw [← hbit, ← or_and_twoPow_eq_iff _ _ (show 12 < 32 by decide)]
  show (w &&& ((~~~0#32) <<< 12) ||| (d * 4#32) &&& 0x001fff#32)
    &&& 0xff7ff000#32 = _ ↔ _
  rw [BitVec.and_or_distrib_right, BitVec.and_assoc, hhigh,
    BitVec.and_assoc, hlow]
  rfl

/-- The thirteenth bit of a signed number. -/
theorem ofInt_bit12 (d : Int) :
    (BitVec.ofInt 32 d).getLsbD 12 = true ↔ 4096 ≤ d % 8192 := by
  rw [getLsbD_eq_true_iff, BitVec.toNat_ofInt]
  omega

/-- Bit 12 of a literal load as emitted is the low bit of its
register. -/
theorem load_bit12 (cc : AgCond) (rd : Word) :
    (ldrstrImmWord agLdrImm cc rd agPc 0 0).getLsbD 12
      = rd.getLsbD 0 := by
  have hmag : ldrstrImmMag 0 = 0#32 := by decide
  have hu : ldrstrImmU 0 = 0x00800000#32 := by decide
  unfold ldrstrImmWord
  rw [hmag, hu]
  simp [agLdrImm, agPc]

-- ========================================================== the references

/-- A reference comes from the item at its offset. -/
theorem Listing.mem_refs {L : Listing} {lr : LabelRef} :
    lr ∈ L.refs
      ↔ ∃ i, ∃ it : Item, L.code[i]? = some it ∧ it.ref i = some lr := by
  unfold refs
  rw [List.mem_filterMap]
  constructor
  · rintro ⟨o, ho, rfl⟩
    obtain ⟨i, hi, heq⟩ := List.mem_mapIdx.mp ho
    exact ⟨i, _, List.getElem?_eq_getElem hi, heq⟩
  · rintro ⟨i, it, hit, hlr⟩
    obtain ⟨hi, rfl⟩ := List.getElem?_eq_some_iff.mp hit
    exact ⟨some lr, List.mem_mapIdx.mpr ⟨i, hi, hlr⟩, rfl⟩

/-- A reference stands at the offset of its item. -/
theorem Item.ref_instOffset {it : Item} {i : Nat} {lr : LabelRef}
    (h : it.ref i = some lr) : lr.instOffset = BitVec.ofNat 32 i := by
  cases it with
  | plain w => cases h
  | jump cc l dst known =>
      cases known with
      | none => cases h; rfl
      | some n => cases h
  | load cc rd lbl => cases h; rfl

/-- An element of a list with one more at the end. -/
theorem getElem?_concat_cases {α : Type} {l : List α} {a b : α} {i : Nat}
    (h : (l ++ [a])[i]? = some b) :
    l[i]? = some b ∨ (l.length = i ∧ a = b) := by
  rcases Nat.lt_trichotomy i l.length with hlt | rfl | hgt
  · rw [List.getElem?_append_left hlt] at h
    exact .inl h
  · rw [List.getElem?_concat_length] at h
    exact .inr ⟨rfl, Option.some.inj h⟩
  · rw [List.getElem?_eq_none (by simp; omega)] at h
    cases h

/-- A literal load of the listing after a call was there before, or the
call wrote it. -/
theorem Listing.step_load {L L' : Listing} {c : Call}
    (h : L.step c = some L') {i : Nat} {cc : AgCond} {rd : Word}
    {lbl : Nat} (hit : L'.code[i]? = some (.load cc rd lbl)) :
    L.code[i]? = some (.load cc rd lbl)
      ∨ (L.code.length = i
        ∧ ∃ imm, c = .movldrImm cc rd imm ∧ needsLiteral imm = true) := by
  -- an item that is no load is not the one found
  have hnew : ∀ it : Item, it ≠ .load cc rd lbl →
      (L.code ++ [it])[i]? = some (.load cc rd lbl) →
      L.code[i]? = some (.load cc rd lbl) := by
    intro it hne h
    rcases getElem?_concat_cases h with h | ⟨-, heq⟩
    · exact h
    · exact absurd heq hne
  cases c with
  | movldrImm cc' rd' imm =>
      cases h
      unfold movldr at hit
      split at hit
      · next hl =>
        rcases getElem?_concat_cases hit with h | ⟨hi, heq⟩
        · exact .inl h
        · cases heq
          exact .inr ⟨hi, imm, rfl, hl⟩
      · split at hit
        · exact .inl (hnew _ Item.noConfusion hit)
        · exact .inl (hnew _ Item.noConfusion hit)
  | insn ins =>
      cases h
      exact .inl (hnew _ Item.noConfusion hit)
  | dataProcessImm cc' opc s rd' rn imm =>
      simp only [step] at h
      split at h <;> cases h
      · exact .inl hit
      · exact .inl (hnew _ Item.noConfusion hit)
  | branch cc' l dst =>
      simp only [step] at h
      split at h
      · cases h
      · next b hb =>
        cases h
        refine .inl (hnew _ ?_ hit)
        cases b <;> exact Item.noConfusion
  | label id =>
      simp only [step] at h
      split at h <;> cases h
      exact .inl hit
  | dataLabel id =>
      simp only [step] at h
      split at h <;> cases h
      exact .inl hit
  | allocLabel uninit => cases h; exact .inl hit
  | newLabel => cases h; exact .inl hit
  | newDataLabel => cases h; exact .inl hit

/-- Every literal load of a listing was written by its call. -/
theorem load_of_call {cs : List Call} :
    ∀ {L : Listing}, listing cs = some L →
      ∀ {i : Nat} {cc : AgCond} {rd : Word} {lbl : Nat},
        L.code[i]? = some (.load cc rd lbl) →
        ∃ pre imm post L₀, cs = pre ++ .movldrImm cc rd imm :: post
          ∧ listing pre = some L₀ ∧ needsLiteral imm = true
          ∧ L₀.code.length = i := by
  induction cs using List.reverseRecOn with
  | nil =>
      intro L hL i cc rd lbl hit
      cases hL
      cases hit
  | append_singleton cs c ih =>
      intro L hL i cc rd lbl hit
      rw [listing_snoc] at hL
      obtain ⟨L₀, hL₀, hstep⟩ := Option.bind_eq_some_iff.mp hL
      rcases Listing.step_load hstep hit with h | ⟨hi, imm, rfl, hl⟩
      · obtain ⟨pre, imm, post, L₁, rfl, hL₁, hl, hi⟩ := ih hL₀ h
        exact ⟨pre, imm, post ++ [c], L₁, by simp, hL₁, hl, hi⟩
      · exact ⟨cs, imm, [], L₀, rfl, hL₀, hl, hi⟩

-- ============================================================== the frame

/-- The thirteenth bit of every literal load's distance is clear, or its
register is odd. -/
def LoadsFit (cs : List Call) (L : Listing) : Prop :=
  ∀ pre cc rd imm post L₀, cs = pre ++ .movldrImm cc rd imm :: post →
    listing pre = some L₀ → needsLiteral imm = true →
    rd.getLsbD 0 = true
      ∨ literalDistance L.code.length L₀.code.length L₀.data.length % 8192
        < 4096

/-- The words of the assembled image, by index. -/
theorem Listing.emitted_getElem? {L : Listing} {i : Nat} {it : Item}
    (h : L.code[i]? = some it) :
    (L.emitted ++ L.data)[i]? = some (it.emitted i) := by
  have hlt : i < L.code.length := (List.getElem?_eq_some_iff.mp h).1
  rw [List.getElem?_append_left (by rw [length_emitted]; exact hlt),
    emitted, List.getElem?_mapIdx, h]
  rfl

/-- Where no reference stands, the image is as assembled. -/
theorem Listing.image_rest {L : Listing} {i : Nat}
    (hlt : L.code.length < 2 ^ 32)
    (h : ∀ lr ∈ L.refs, lr.instOffset.toNat ≠ i) :
    L.image[i]? = (L.emitted ++ L.data)[i]? := by
  by_cases hi : i < L.code.length
  · have hit := List.getElem?_eq_getElem hi
    rw [image_getElem? hit, emitted_getElem? hit]
    cases hlr : (L.code[i]).ref i with
    | none => rw [Item.final_of_ref_none hlr]
    | some lr =>
        refine absurd ?_ (h lr (mem_refs.mpr ⟨i, _, hit, hlr⟩))
        rw [Item.ref_instOffset hlr, BitVec.toNat_ofNat]
        exact Nat.mod_eq_of_lt (by omega)
  · unfold image
    rw [List.getElem?_append_right (by rw [length_finalCode]; omega),
      List.getElem?_append_right (by rw [length_emitted]; omega),
      length_finalCode, length_emitted]

/-- A code index is its own reference offset. -/
theorem Listing.index_toNat {L : Listing} (hlt : L.code.length < 2 ^ 32)
    {i : Nat} {it : Item} (hit : L.code[i]? = some it) :
    (BitVec.ofNat 32 i).toNat = i := by
  have hi := (List.getElem?_eq_some_iff.mp hit).1
  rw [BitVec.toNat_ofNat]
  exact Nat.mod_eq_of_lt (by omega)

/-- The final word of a call's literal load keeps all but the offset
exactly when the load fits. -/
theorem final_load_kept_iff {L : Listing} {cc : AgCond} {rd : Word}
    {lbl i k : Nat} (hb : L.labels[lbl]? = some (.data k)) :
    (Item.load cc rd lbl).final L.labels L.code.length i
          &&& LabelrefType.ldr.kept
        = (Item.load cc rd lbl).emitted i &&& LabelrefType.ldr.kept
      ↔ (rd.getLsbD 0 = true
        ∨ literalDistance L.code.length i k % 8192 < 4096) := by
  have hfinal : (Item.load cc rd lbl).final L.labels L.code.length i
      = patchLdr (ldrstrImmWord agLdrImm cc rd agPc 0 0)
          ((Binding.data k).delta L.code.length i) := by
    simp only [Item.final, hb]
    rfl
  have hemitted : (Item.load cc rd lbl).emitted i
      = ldrstrImmWord agLdrImm cc rd agPc 0 0 := rfl
  rw [hfinal, hemitted, patchLdr_kept_iff, delta_eq_distance, ofInt_bit12,
    load_bit12]
  constructor
  · intro h
    by_cases hge : 4096 ≤ literalDistance L.code.length i k % 8192
    · exact .inl (h hge)
    · exact .inr (by omega)
  · rintro (hrd | hfit) hge
    · exact hrd
    · omega

/-- The patches of a run touch offset fields only, if and only if every
literal load fits. -/
theorem patchesOffsets_iff {cs : List Call} {L : Listing}
    (hL : listing cs = some L) (hown : OwnLabels cs)
    (hlt : L.code.length < 2 ^ 32) :
    PatchesOffsets L.refs (L.emitted ++ L.data) L.image
      ↔ LoadsFit cs L := by
  constructor
  · intro h pre cc rd imm post L₀ hcs hL₀ hl
    subst hcs
    obtain ⟨L₁, hL₁, hit, hb, -⟩ := literal_stays hL hown hl
    rw [hL₀] at hL₁
    cases hL₁
    obtain ⟨w, w', hw, hw', hkept⟩ := h.field _
      (Listing.mem_refs.mpr ⟨_, _, hit, rfl⟩)
    rw [Listing.index_toNat hlt hit, Listing.emitted_getElem? hit] at hw
    rw [Listing.index_toNat hlt hit, Listing.image_getElem? hit] at hw'
    cases hw
    cases hw'
    exact (final_load_kept_iff hb).mp hkept
  · intro h
    constructor
    · intro lr hlr
      obtain ⟨i, it, hit, hlr⟩ := Listing.mem_refs.mp hlr
      rw [Item.ref_instOffset hlr, Listing.index_toNat hlt hit]
      refine ⟨_, _, Listing.emitted_getElem? hit,
        Listing.image_getElem? hit, ?_⟩
      cases it with
      | plain w => cases hlr
      | jump cc l dst known =>
          cases known with
          | some n => cases hlr
          | none =>
              cases hlr
              simp only [Item.final]
              split
              · rfl
              · exact patchBranch_kept _ _
      | load cc rd lbl =>
          cases hlr
          obtain ⟨pre, imm, post, L₀, rfl, hL₀, hl, rfl⟩ :=
            load_of_call hL hit
          obtain ⟨L₁, hL₁, hit', hb, -⟩ := literal_stays hL hown hl
          rw [hL₀] at hL₁
          cases hL₁
          rw [hit] at hit'
          cases hit'
          exact (final_load_kept_iff hb).mpr
            (h pre cc rd imm post L₀ rfl hL₀ hl)
    · exact fun i hi => Listing.image_rest hlt hi

-- ===================================================== the immediate forms

/-- The word's condition, opcode, Rn and Rt are the ones asked for. -/
def FieldsKept (op : LdrstrOp) (cc : AgCond) (rt rn : BitVec 4)
    (w : Word) : Prop :=
  ∃ d, A32.decodeLoadStore w = some d ∧ d.cond = cc.code
    ∧ d.load = op.load ∧ d.byte = op.byte ∧ d.rn = rn ∧ d.rt = rt

/-- A thirteenth bit on Rt does no harm if it is clear or Rt is odd. -/
theorem or_bits12_eq_iff (rt : BitVec 4) (y : BitVec 13) :
    rt ||| bits y 12 4 = rt
      ↔ (rt.getLsbD 0 = true ∨ y.toNat < 4096) := by
  have hy := y.isLt
  by_cases hlt : y.toNat < 4096
  · have hclear : bits y 12 4 = 0#4 := by
      apply BitVec.eq_of_toNat_eq
      rw [toNat_bits, BitVec.toNat_ofNat]
      omega
    rw [hclear]
    simp [hlt]
  · have hset : bits y 12 4 = 1#4 := by
      apply BitVec.eq_of_toNat_eq
      rw [toNat_bits, BitVec.toNat_ofNat]
      omega
    rw [hset]
    simp only [hlt, or_false]
    revert rt
    decide

/-- Every immediate form is its encoder on its own opcode. -/
theorem LdrstrOp.emitImm_eq (op : LdrstrOp) (e : Emitter) (cc : AgCond)
    (rt rn imm incr : Word) :
    op.emitImm e cc rt rn imm incr
      = agEmit4 e (ldrstrImmWord op.immOpc cc rt rn imm incr) := by
  cases op <;> rfl

/-- An immediate form keeps its other fields exactly when the thirteenth
bit of the magnitude is clear or Rt is odd. -/
theorem fieldsKept_iff (op : LdrstrOp) (cc : AgCond) (rt rn : BitVec 4)
    (imm : Word) (p w : BitVec 1) :
    FieldsKept op cc rt rn (ldrstrImmWord op.immOpc cc (rt.setWidth 32)
        (rn.setWidth 32) imm
        ((p.setWidth 32 <<< 24) ||| (w.setWidth 32 <<< 21)))
      ↔ (rt.getLsbD 0 = true ∨ imm.toInt.natAbs % 8192 < 4096) := by
  rw [← magnitude13_toNat, ← or_bits12_eq_iff]
  unfold FieldsKept
  rw [decode_ldrstrImm]
  constructor
  · rintro ⟨d, hd, -, -, -, -, hrt⟩
    cases hd
    exact hrt
  · intro hrt
    exact ⟨_, rfl, rfl, rfl, rfl, rfl, hrt⟩

/-- Offset arithmetic stays in its field exactly where the thirteenth
bit is clear or falls on an odd register: for the patches of every run,
and for every immediate form with any addressing bits. -/
theorem offset_frame_iff (ps : PageSize) {cs : List Call} {L : Listing}
    (hL : listing cs = some L) (hown : OwnLabels cs) (hmem : L.Placed)
    (hd : L.data.length ≤ codebufferSize) :
    (∃ e c₀ code e', run cs = some e ∧ assembleCode ps e = some c₀
      ∧ agAllocCode ps e = some (code, e')
      ∧ (PatchesOffsets e.labelRefs c₀.image code.image
        ↔ LoadsFit cs L))
    ∧ ∀ (op : LdrstrOp) (cc : AgCond) (rt rn : BitVec 4) (imm : Word)
        (p w : BitVec 1), ∃ word,
        (∀ e, op.emitImm e cc (rt.setWidth 32) (rn.setWidth 32) imm
            ((p.setWidth 32 <<< 24) ||| (w.setWidth 32 <<< 21))
          = agEmit4 e word)
        ∧ (FieldsKept op cc rt rn word
          ↔ (rt.getLsbD 0 = true ∨ imm.toInt.natAbs % 8192 < 4096)) := by
  constructor
  · obtain ⟨e, he, hsim⟩ := run_eq_some hL hd
    obtain ⟨z, hz⟩ := assembleCode_eq ps hsim hmem
    obtain ⟨code, e', hcode, himage, -⟩ :=
      agAllocCode_eq ps hsim (labelsKnown hL) hmem
    refine ⟨e, _, code, e', he, hz, hcode, ?_⟩
    have hfits := hmem.fits
    rw [hsim.refs, assembled_image hmem z, himage]
    refine patchesOffsets_iff hL hown ?_
    simp only [instSize] at hfits
    omega
  · intro op cc rt rn imm p w
    exact ⟨_, fun e => op.emitImm_eq e cc _ _ imm _,
      fieldsKept_iff op cc rt rn imm p w⟩

/-- A literal load of an odd register and a return: the patch stays in
the offset, and so does a store at offset -4. -/
theorem offset_frame_return :
    (∃ e c₀ code e',
      run [.movldrImm .condAl 1 256, .insn (.bx .condAl agLr)] = some e
      ∧ assembleCode .default e = some c₀
      ∧ agAllocCode .default e = some (code, e')
      ∧ PatchesOffsets e.labelRefs c₀.image code.image)
    ∧ ∃ word, (∀ e, agEmitStrImm e .condAl 3 2 (-4) 0x01000000
        = agEmit4 e word) ∧ FieldsKept .str .condAl 3 2 word := by
  have hL : listing [.movldrImm .condAl 1 256, .insn (.bx .condAl agLr)]
      = some ⟨[.load .condAl 1 0, .plain 0xe12fff1e#32], [256#32],
          [.data 0]⟩ := by decide
  obtain ⟨hpatch, himm⟩ := offset_frame_iff .default hL (by decide)
    (Listing.placed_of_fits (by decide)) (by decide)
  constructor
  · obtain ⟨e, c₀, code, e', he, hc₀, hcode, hiff⟩ := hpatch
    refine ⟨e, c₀, code, e', he, hc₀, hcode, hiff.mpr ?_⟩
    intro pre cc rd imm post L₀ hcs _ _
    have hmem : Call.movldrImm cc rd imm
        ∈ [.movldrImm .condAl 1 256, .insn (.bx .condAl agLr)] := by
      rw [hcs]
      simp
    simp only [List.mem_cons, Call.movldrImm.injEq, reduceCtorEq,
      List.not_mem_nil, or_false] at hmem
    obtain ⟨-, rfl, -⟩ := hmem
    exact .inl (by decide)
  · obtain ⟨word, hword, hiff⟩ := himm .str .condAl 3 2 (-4) 1 0
    exact ⟨word, hword, hiff.mpr (.inl (by decide))⟩

/-- Calls that name no label name none they do not own. -/
theorem ownLabelsFrom_of_no_target :
    ∀ (cs : List Call) (L : Listing) (owned : List Nat),
      (∀ c ∈ cs, c.target = none) → ownLabelsFrom L owned cs := by
  intro cs
  induction cs with
  | nil => intro L owned _; trivial
  | cons c cs ih =>
      intro L owned h
      refine ⟨fun id hid => ?_, fun L' _ => ?_⟩
      · rw [h c List.mem_cons_self] at hid
        cases hid
      · exact ih L' _ fun c' hc' => h c' (List.mem_cons_of_mem _ hc')

/-- The listing of one word many times. -/
theorem Listing.run_replicate_insn (i : Insn) (n : Nat) :
    ∀ L : Listing, L.run (List.replicate n (.insn i))
      = some { L with code := L.code ++ List.replicate n (.plain i.word) }
      := by
  induction n with
  | zero =>
      intro L
      rw [List.replicate_zero, List.replicate_zero, List.append_nil]
      rfl
  | succ n ih =>
      intro L
      rw [List.replicate_succ, run_cons]
      show (L.emit (.plain i.word)).run _ = _
      rw [ih, List.replicate_succ]
      simp [emit]

/-- A literal load with `n` words of code behind it. -/
def farLoad (n : Nat) : List Call :=
  .movldrImm .condAl 0 256 :: List.replicate n (.insn (.bx .condAl agLr))

/-- Its listing. -/
theorem listing_farLoad (n : Nat) :
    listing (farLoad n) = some
      ⟨.load .condAl 0 0
        :: List.replicate n (.plain (Insn.bx .condAl agLr).word),
        [256#32], [.data 0]⟩ := by
  unfold listing farLoad
  rw [Listing.run_cons]
  exact Listing.run_replicate_insn (.bx .condAl agLr) n
    ⟨[.load .condAl 0 0], [256#32], [.data 0]⟩

theorem ownLabels_farLoad (n : Nat) : OwnLabels (farLoad n) := by
  refine ownLabelsFrom_of_no_target _ _ _ fun c hc => ?_
  rcases List.mem_cons.mp hc with rfl | hc
  · rfl
  · rw [List.eq_of_mem_replicate hc]
    rfl

/-- The far load before and after its patch. -/
theorem farLoad_words (ps : PageSize) {n : Nat} (hn : n ≤ 4096) :
    ∃ e c₀ code e', run (farLoad n) = some e
      ∧ assembleCode ps e = some c₀ ∧ agAllocCode ps e = some (code, e')
      ∧ c₀.image[0]? = some 0xe59f0000#32
      ∧ code.image[0]? = some (patchLdr 0xe59f0000#32
          ((Binding.data 0).delta (n + 1) 0))
      ∧ ⟨.ldr, 0, 0⟩ ∈ e.labelRefs := by
  have hL := listing_farLoad n
  generalize hits : List.replicate n
    (Item.plain (Insn.bx .condAl agLr).word) = its at hL
  have hlen : its.length = n := by rw [← hits, List.length_replicate]
  have hmem := Listing.placed_of_fits
    (L := ⟨.load .condAl 0 0 :: its, [256#32], [.data 0]⟩) (by
      simp only [List.length_cons, List.length_nil, instSize, hlen]
      omega)
  obtain ⟨e, he, hsim⟩ := run_eq_some hL
    (show 1 ≤ codebufferSize by decide)
  obtain ⟨z, hz⟩ := assembleCode_eq ps hsim hmem
  obtain ⟨code, e', hcode, himage, -⟩ :=
    agAllocCode_eq ps hsim (labelsKnown hL) hmem
  refine ⟨e, _, code, e', he, hz, hcode, ?_, ?_, ?_⟩
  · rw [assembled_image hmem z,
      Listing.emitted_getElem? List.getElem?_cons_zero]
    rfl
  · rw [himage, Listing.image_getElem? List.getElem?_cons_zero,
      ← hlen]
    rfl
  · rw [hsim.refs]
    exact Listing.mem_refs.mpr ⟨0, _, List.getElem?_cons_zero, rfl⟩

/-- 4 KiB of code behind it, and the patch turns the load's register
from r0 to r1; so does an LDR with the offset 4096. -/
theorem offset_spills :
    OwnLabels (farLoad 1025)
    ∧ (∃ e c₀ code e', run (farLoad 1025) = some e
      ∧ assembleCode .default e = some c₀
      ∧ agAllocCode .default e = some (code, e')
      ∧ c₀.image[0]? = some 0xe59f0000#32
      ∧ code.image[0]? = some 0xe59f1000#32
      ∧ ¬ PatchesOffsets e.labelRefs c₀.image code.image)
    ∧ (∀ e, agEmitLdrImm e .condAl 0 1 4096 agOffsetAddr
        = agEmit4 e 0xe5911000#32)
    ∧ ¬ FieldsKept .ldr .condAl 0 1 0xe5911000#32 := by
  refine ⟨ownLabels_farLoad 1025, ?_, fun e => rfl, ?_⟩
  · obtain ⟨e, c₀, code, e', he, hc₀, hcode, hbefore, hafter, href⟩ :=
      farLoad_words .default (show 1025 ≤ 4096 by decide)
    have hword : patchLdr 0xe59f0000#32
        ((Binding.data 0).delta (1025 + 1) 0) = 0xe59f1000#32 := by decide
    rw [hword] at hafter
    refine ⟨e, c₀, code, e', he, hc₀, hcode, hbefore, hafter, fun h => ?_⟩
    obtain ⟨w, w', hw, hw', hkept⟩ := h.field _ href
    rw [show (0 : Word).toNat = 0 from rfl] at hw hw'
    rw [hbefore] at hw
    rw [hafter] at hw'
    cases hw
    cases hw'
    exact absurd hkept (by decide)
  · rintro ⟨d, hd, -, -, -, -, hrt⟩
    have hdec : (A32.decodeLoadStore 0xe5911000#32).map
        A32.LoadStore.rt = some 1 := by decide
    rw [hd] at hdec
    simp only [Option.map_some, hrt, Option.some.injEq] at hdec
    exact absurd hdec (by decide)

end UdeBench.Ag
