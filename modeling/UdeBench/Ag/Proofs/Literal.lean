/-
`ldr rd, =imm`: what the word of an `ag_emit_movldr_imm` call does in
the finished image.

A byte-sized value is a MOV or an MVN and is right at once. A literal
load is patched with the low 13 bits of a byte distance, and the U bit
stays set, as emitted. So the load is right while the distance is not
negative, and there is one negative distance in range: the load is the
last code word and its literal the first data word, 4 bytes behind the
pc. Every other load has a word of code after it or a literal before its
own (`literalDistance_nonneg`).

# Labels

The label of a literal is known to the emitter alone. Callers bind
labels they were given (`OwnLabels`), so it stays at its literal
(`literal_stays`).
-/
import UdeBench.Ag.Proofs.Decode
import UdeBench.Ag.Proofs.Resolve

namespace UdeBench.Ag

open A32 (Word)
open Bits

-- ============================================================ own labels

/-- The label a call names. -/
def Call.target : Call → Option Nat
  | .branch _ _ dst => some dst
  | .label id => some id
  | .dataLabel id => some id
  | _ => none

/-- The label a call gives its caller. -/
def Call.returned (L : Listing) : Call → Option Nat
  | .allocLabel _ => some L.labels.length
  | .newLabel => some L.labels.length
  | .newDataLabel => some L.labels.length
  | _ => none

/-- The calls name only labels of `owned` and labels they were given
themselves. -/
def ownLabelsFrom (L : Listing) (owned : List Nat) : List Call → Prop
  | [] => True
  | c :: cs =>
      (∀ id ∈ c.target, id ∈ owned)
        ∧ ∀ L' ∈ L.step c,
            ownLabelsFrom L' (owned ++ (c.returned L).toList) cs

instance decidableOwnLabelsFrom (L : Listing) (owned : List Nat) :
    (cs : List Call) → Decidable (ownLabelsFrom L owned cs)
  | [] => .isTrue trivial
  | c :: cs =>
      have : ∀ L', Decidable
          (ownLabelsFrom L' (owned ++ (c.returned L).toList) cs) :=
        fun L' => decidableOwnLabelsFrom L' _ cs
      inferInstanceAs (Decidable (_ ∧ _))

/-- A run that names only labels the emitter has given it. -/
def OwnLabels (cs : List Call) : Prop :=
  ownLabelsFrom Listing.empty [] cs

instance (cs : List Call) : Decidable (OwnLabels cs) :=
  decidableOwnLabelsFrom _ _ cs

/-- Labels are never removed. -/
theorem Listing.Step.labels_le {L L' : Listing} (h : L.Step L') :
    L.labels.length ≤ L'.labels.length := by
  cases h with
  | same => exact Nat.le_refl _
  | plain w => exact Nat.le_refl _
  | jump cc l dst b _ => exact Nat.le_refl _
  | literal cc rd imm _ => simp
  | bind id b _ _ => simp [Listing.bind]
  | newLabel b _ => simp [Listing.newLabel]

/-- The label given out is the next one of the table. -/
theorem Call.returned_eq {L : Listing} {c : Call} {id : Nat}
    (hid : c.returned L = some id) : id = L.labels.length := by
  cases c <;> cases hid <;> rfl

/-- A label that was given out is in the table. -/
theorem Listing.step_returned {L L' : Listing} {c : Call}
    (h : L.step c = some L') {id : Nat} (hid : c.returned L = some id) :
    id < L'.labels.length := by
  cases c <;> cases hid <;> cases h <;> simp [Listing.newLabel]

/-- The labels owned after a call are in the table. -/
theorem Listing.step_owned {L L' : Listing} {c : Call}
    (h : L.step c = some L') {owned : List Nat}
    (hown : ∀ id ∈ owned, id < L.labels.length) :
    ∀ id ∈ owned ++ (c.returned L).toList, id < L'.labels.length := by
  intro id hid
  rcases List.mem_append.mp hid with hid | hid
  · exact Nat.lt_of_lt_of_le (hown id hid) (step_inv h).labels_le
  · exact step_returned h (Option.mem_toList.mp hid)

/-- The second part of a run owns labels of the listing it starts
from. -/
theorem ownLabelsFrom_append {post : List Call} :
    ∀ (pre : List Call) {L L₁ : Listing} {owned : List Nat},
      ownLabelsFrom L owned (pre ++ post) → L.run pre = some L₁ →
      (∀ id ∈ owned, id < L.labels.length) →
      ∃ owned₁, ownLabelsFrom L₁ owned₁ post
        ∧ ∀ id ∈ owned₁, id < L₁.labels.length := by
  intro pre
  induction pre with
  | nil =>
      intro L L₁ owned h hrun hown
      cases hrun
      exact ⟨owned, h, hown⟩
  | cons c pre ih =>
      intro L L₁ owned h hrun hown
      rw [Listing.run_cons] at hrun
      obtain ⟨L', hstep, hrun⟩ := Option.bind_eq_some_iff.mp hrun
      exact ih (h.2 L' hstep) hrun (Listing.step_owned hstep hown)

/-- A call that does not name a label leaves it where it is. -/
theorem Listing.step_stays {L L' : Listing} {c : Call}
    (h : L.step c = some L') {id : Nat} {b : Binding}
    (hid : L.labels[id]? = some b) (hne : c.target ≠ some id) :
    L'.labels[id]? = some b := by
  have hlt : id < L.labels.length := (List.getElem?_eq_some_iff.mp hid).1
  have happ : ∀ b' : Binding, (L.labels ++ [b'])[id]? = some b := by
    intro b'
    rw [List.getElem?_append_left hlt, hid]
  have hset : ∀ (id' : Nat) (b' : Binding), id' ≠ id →
      (L.labels.set id' b')[id]? = some b := by
    intro id' b' hne'
    rw [List.getElem?_set_ne hne', hid]
  cases c with
  | label id' =>
      simp only [step] at h
      split at h <;> cases h
      exact hset id' _ fun heq => hne (by rw [← heq]; rfl)
  | dataLabel id' =>
      simp only [step] at h
      split at h <;> cases h
      exact hset id' _ fun heq => hne (by rw [← heq]; rfl)
  | insn i => cases h; exact hid
  | dataProcessImm cc opc s rd rn imm =>
      simp only [step] at h
      split at h <;> cases h <;> exact hid
  | branch cc l dst =>
      simp only [step] at h
      split at h <;> cases h
      exact hid
  | movldrImm cc rd imm =>
      cases h
      unfold movldr
      split
      · exact happ _
      · split <;> exact hid
  | allocLabel uninit => cases h; exact happ _
  | newLabel => cases h; exact happ _
  | newDataLabel => cases h; exact happ _

/-- A label nobody owns stays where it is. -/
theorem Listing.run_stays (cs : List Call) :
    ∀ {L L' : Listing} {owned : List Nat} {id : Nat} {b : Binding},
      L.run cs = some L' → ownLabelsFrom L owned cs → id ∉ owned →
      L.labels[id]? = some b → L'.labels[id]? = some b := by
  induction cs with
  | nil =>
      intro L L' owned id b hrun _ _ hid
      cases hrun
      exact hid
  | cons c cs ih =>
      intro L L' owned id b hrun hown hnot hid
      rw [run_cons] at hrun
      obtain ⟨L₁, hstep, hrun⟩ := Option.bind_eq_some_iff.mp hrun
      have hne : c.target ≠ some id := fun heq => hnot (hown.1 id heq)
      refine ih hrun (hown.2 L₁ hstep) ?_ (step_stays hstep hid hne)
      -- a label given out now is past the end of the old table
      intro hmem
      rcases List.mem_append.mp hmem with hmem | hmem
      · exact hnot hmem
      · have hret := Call.returned_eq (Option.mem_toList.mp hmem)
        have hlt := (List.getElem?_eq_some_iff.mp hid).1
        omega

/-- The item and the label of a literal load, in the finished listing. -/
theorem literal_stays {pre post : List Call} {cc : AgCond} {rd imm : Word}
    {L : Listing}
    (hL : listing (pre ++ .movldrImm cc rd imm :: post) = some L)
    (hown : OwnLabels (pre ++ .movldrImm cc rd imm :: post))
    (hl : needsLiteral imm = true) :
    ∃ L₀, listing pre = some L₀
      ∧ L.code[L₀.code.length]? = some (.load cc rd L₀.labels.length)
      ∧ L.labels[L₀.labels.length]? = some (.data L₀.data.length)
      ∧ L.data[L₀.data.length]? = some imm := by
  have hrun := hL
  unfold listing at hrun
  rw [Listing.run_append] at hrun
  obtain ⟨L₀, h₀, hrun⟩ := Option.bind_eq_some_iff.mp hrun
  rw [Listing.run_cons] at hrun
  obtain ⟨L₁, hstep, hpost⟩ := Option.bind_eq_some_iff.mp hrun
  obtain ⟨owned, howned, hlt⟩ := ownLabelsFrom_append pre hown h₀
    fun id hid => by cases hid
  have hown₁ := howned.2 L₁ hstep
  have hgrows := Listing.run_grows hpost
  cases hstep
  have hmov : L₀.movldr cc rd imm
      = { code := L₀.code ++ [.load cc rd L₀.labels.length]
          data := L₀.data ++ [imm]
          labels := L₀.labels ++ [.data L₀.data.length] } := by
    unfold Listing.movldr
    rw [if_pos hl]
  rw [hmov] at hpost hgrows hown₁
  refine ⟨L₀, h₀, hgrows.item (by simp), ?_, hgrows.literal (by simp)⟩
  refine Listing.run_stays post hpost hown₁ ?_ (by simp)
  intro hmem
  rcases List.mem_append.mp hmem with hmem | hmem
  · exact Nat.lt_irrefl _ (hlt _ hmem)
  · cases hmem

-- ========================================================== the distance

/-- The signed byte distance from the pc of the load at code index `i`
to the literal with data index `k`, after `n` code words. -/
def literalDistance (n i k : Nat) : Int :=
  4 * ((n : Int) + k) - (4 * i + 8)

/-- The word distance of the patch, in bytes, is the distance. -/
theorem delta_eq_distance (n i k : Nat) :
    (Binding.data k).delta n i * 4#32
      = BitVec.ofInt 32 (literalDistance n i k) := by
  apply BitVec.eq_of_toNat_eq
  show ((BitVec.ofNat 32 k + BitVec.ofNat 32 n - BitVec.ofNat 32 i - 2#32)
    * 4#32).toNat = _
  rw [BitVec.toNat_ofInt, BitVec.toNat_mul, BitVec.toNat_sub,
    BitVec.toNat_sub, BitVec.toNat_add, BitVec.toNat_ofNat,
    BitVec.toNat_ofNat, BitVec.toNat_ofNat, BitVec.toNat_ofNat,
    BitVec.toNat_ofNat]
  simp only [literalDistance]
  omega

/-- The low 13 bits of a byte distance, as the patch takes them. -/
def offset13 (d : Int) : BitVec 13 := (BitVec.ofInt 32 d).setWidth 13

/-- A literal load with the 13 offset bits that are patched in. -/
def loadWord (cond rd : BitVec 4) (y : BitVec 13) : Word :=
  (cond.setWidth 32 <<< 28) ||| 0x05900000#32 ||| (0xf#32 <<< 16)
    ||| (rd.setWidth 32 <<< 12) ||| y.setWidth 32

/-- The patched word of a literal load. -/
theorem patchLdr_load (cc : AgCond) (rd : BitVec 4) (d : Word) :
    patchLdr (ldrstrImmWord agLdrImm cc (rd.setWidth 32) agPc 0 0) d
      = loadWord cc.code rd ((d * 4#32).setWidth 13) := by
  have hlow : (d * 4#32) &&& 0x001fff#32
      = ((d * 4#32).setWidth 13).setWidth 32 :=
    and_mask_eq_setWidth (d * 4#32) (k := 13) (by decide)
  have hmask : ((~~~0#32) <<< 12 : Word) = BitVec.allOnes 32 <<< 12 := rfl
  have hkeep : ldrstrImmWord agLdrImm cc (rd.setWidth 32) agPc 0 0
      = (cc.val <<< 28) ||| 0x05900000#32 ||| (0xf#32 <<< 16)
        ||| (rd.setWidth 32 <<< 12) := by
    have hu : ldrstrImmU 0 = 0x00800000#32 := by decide
    have hmag : ldrstrImmMag 0 = 0#32 := by decide
    have hpc : agPc = 0xf#32 := rfl
    have hopc : agLdrImm = 0x05100000#32 := rfl
    unfold ldrstrImmWord
    rw [hu, hmag, hpc, hopc, BitVec.or_zero,
      show (0 : Word) ||| 0x05100000#32 = 0x05100000#32 from rfl,
      BitVec.or_comm (0x05100000#32), BitVec.or_assoc (cc.val <<< 28)]
    rfl
  have hconst : ((0x05900000#32 : Word) &&& BitVec.allOnes 32 <<< 12)
      = 0x05900000#32 := by decide
  unfold patchLdr loadWord
  rw [hkeep, hlow, hmask]
  simp only [BitVec.and_or_distrib_right, hconst,
    shl_and_mask _ (show 12 ≤ 28 by decide),
    shl_and_mask _ (show 12 ≤ 16 by decide),
    shl_and_mask _ (Nat.le_refl 12)]
  rfl

/-- What the patched word decodes to: the thirteenth offset bit falls on
the low bit of Rt, and the offset is always added. -/
theorem decode_loadWord (cc : AgCond) (rd : BitVec 4) (y : BitVec 13) :
    A32.decodeLoadStore (loadWord cc.code rd y)
      = some { cond := cc.code, load := 1, byte := 0, mode := .offset,
               rn := 0xf, rt := rd ||| bits y 12 4,
               offset := .imm 1 (bits y 0 12) } := by
  have hcond := cc.code_ne
  have h12 : bits (y.setWidth 32) 12 4 = bits y 12 4 :=
    bits_setWidth y (by decide)
  have h0 : bits (y.setWidth 32) 0 12 = bits y 0 12 :=
    bits_setWidth y (by decide)
  unfold A32.decodeLoadStore loadWord
  simp [h12, h0, A32.addrMode, hcond]

/-- The word of a literal load in the finished image. -/
theorem image_load {L : Listing} {cc : AgCond} {rd : BitVec 4}
    {lbl i k : Nat}
    (hit : L.code[i]? = some (.load cc (rd.setWidth 32) lbl))
    (hb : L.labels[lbl]? = some (.data k)) :
    L.image[i]? = some (loadWord cc.code rd
      (offset13 (literalDistance L.code.length i k))) := by
  rw [Listing.image_getElem? hit, Item.final]
  simp only [hb]
  rw [show Item.emitted i (.load cc (rd.setWidth 32) lbl)
      = ldrstrImmWord agLdrImm cc (rd.setWidth 32) agPc 0 0 from rfl,
    patchLdr_load, delta_eq_distance, offset13]

-- ============================================================ the meaning

/-- The instruction `w`, found at code index `i` of an image with `n`
code words, puts `imm` in `rd` under `cond`: a MOV or an MVN of the
value, or a load from a data word that holds it. `k` is the data index
of the call's own literal; past 4095 bytes nothing is asked. -/
structure PutsInRd (image : List Word) (n i k : Nat) (cond rd : BitVec 4)
    (imm w : Word) : Prop where
  mov : 0 ≤ imm.toInt → imm.toInt ≤ 255 → ∃ imm12,
    A32.decodeDpImm w = some { cond := cond, op := A32.opMov, s := 0,
                               rn := 0, rd := rd, imm12 := imm12 }
      ∧ A32.expandImm imm12 = imm
  mvn : -256 ≤ imm.toInt → imm.toInt ≤ -1 → ∃ imm12,
    A32.decodeDpImm w = some { cond := cond, op := A32.opMvn, s := 0,
                               rn := 0, rd := rd, imm12 := imm12 }
      ∧ ~~~ A32.expandImm imm12 = imm
  ldr : imm.toInt < -256 ∨ 255 < imm.toInt →
    (literalDistance n i k).natAbs ≤ 4095 → ∃ add imm12 j,
      A32.decodeLoadStore w
        = some { cond := cond, load := 1, byte := 0, mode := .offset,
                 rn := 0xf, rt := rd, offset := .imm add imm12 }
      ∧ n ≤ j ∧ image[j]? = some imm
      ∧ 4 * (i : Int) + 8 + A32.immOffset add imm12 = 4 * j

/-- The load that is the last code word, of the first literal. -/
def LastLoadFirstLiteral (n i k : Nat) : Prop := i + 1 = n ∧ k = 0

/-- Every other load reads forward. -/
theorem literalDistance_nonneg {n i k : Nat} (hi : i < n)
    (h : ¬ LastLoadFirstLiteral n i k) : 0 ≤ literalDistance n i k := by
  unfold LastLoadFirstLiteral at h
  unfold literalDistance
  omega

/-- A distance below 4096 is in the low 12 bits. -/
theorem bits_of_distance {d : Int} (h0 : 0 ≤ d) (h1 : d ≤ 4095) :
    bits (offset13 d) 12 4 = 0#4
      ∧ ((bits (offset13 d) 0 12).toNat : Int) = d := by
  have hy : (offset13 d).toNat = d.toNat := by
    rw [offset13, BitVec.toNat_setWidth, BitVec.toNat_ofInt]
    omega
  constructor
  · apply BitVec.eq_of_toNat_eq
    rw [toNat_bits, hy, BitVec.toNat_ofNat]
    omega
  · rw [toNat_bits, hy]
    omega

/-- Past the code words the image is the literals. -/
theorem Listing.image_literal {L : Listing} {k : Nat} {imm : Word}
    (h : L.data[k]? = some imm) :
    L.image[L.code.length + k]? = some imm := by
  unfold image
  rw [List.getElem?_append_right (by rw [length_finalCode]; omega),
    length_finalCode, Nat.add_sub_cancel_left, h]

/-- A literal load that reads forward is right. -/
theorem putsInRd_load {image : List Word} {cc : AgCond} {rd : BitVec 4}
    {n i k : Nat} {imm : Word} (hl : needsLiteral imm = true)
    (hdata : image[n + k]? = some imm) (h0 : 0 ≤ literalDistance n i k) :
    PutsInRd image n i k cc.code rd imm
      (loadWord cc.code rd (offset13 (literalDistance n i k))) := by
  have hbig := (needsLiteral_iff imm).mp hl
  refine ⟨fun h h' => by omega, fun h h' => by omega, fun _ hd => ?_⟩
  obtain ⟨hrt, hoff⟩ := bits_of_distance h0 (by omega)
  refine ⟨1, bits (offset13 (literalDistance n i k)) 0 12, n + k, ?_,
    Nat.le_add_right _ _, hdata, ?_⟩
  · rw [decode_loadWord, hrt, BitVec.or_zero]
  · unfold A32.immOffset
    rw [if_pos (show (1 : BitVec 1) = 1#1 from rfl), hoff]
    unfold literalDistance
    omega

/-- The load 4 bytes in front of its literal's end reads 4092 bytes past
its pc: outside any image with at most 512 literals. -/
theorem not_putsInRd_last {L : Listing} {cc : AgCond} {rd : BitVec 4}
    {i k : Nat} {imm : Word} (hl : needsLiteral imm = true)
    (hd : L.data.length ≤ codebufferSize)
    (hlast : LastLoadFirstLiteral L.code.length i k) :
    ¬ PutsInRd L.image L.code.length i k cc.code rd imm
      (loadWord cc.code rd
        (offset13 (literalDistance L.code.length i k))) := by
  intro h
  obtain ⟨hi, rfl⟩ := hlast
  have hdist : literalDistance L.code.length i 0 = -4 := by
    unfold literalDistance
    omega
  obtain ⟨add, imm12, j, hw, -, hj, haddr⟩ := h.ldr
    ((needsLiteral_iff imm).mp hl) (by rw [hdist]; decide)
  rw [hdist, decode_loadWord] at hw
  simp only [Option.some.injEq, A32.LoadStore.mk.injEq, true_and,
    A32.LsOffset.imm.injEq] at hw
  obtain ⟨-, rfl, rfl⟩ := hw
  have hoff : A32.immOffset 1 (bits (offset13 (-4)) 0 12) = 4092 := by
    decide
  rw [hoff] at haddr
  have hlen := (List.getElem?_eq_some_iff.mp hj).1
  rw [Listing.length_image] at hlen
  simp only [codebufferSize] at hd
  omega

/-- The word of a byte-sized value is right wherever it stands. -/
theorem putsInRd_byte {image : List Word} {n i k : Nat} {cc : AgCond}
    {rd : BitVec 4} {imm w : Word} (hl : needsLiteral imm = false)
    (hw : (Call.movldrImm cc (rd.setWidth 32) imm).word = some w) :
    PutsInRd image n i k cc.code rd imm w := by
  have hsmall := (needsLiteral_iff imm).not.mp (by rw [hl]; decide)
  simp only [Call.word, hl, Bool.false_eq_true, if_false] at hw
  have hzero : (0 : Word) = (0#1).setWidth 32 := rfl
  have hzero4 : (0 : Word) = (0#4).setWidth 32 := rfl
  split at hw
  · next hs =>
    cases hw
    have hbyte := byte_of_lt (mov_imm_lt hl hs)
    have hdec := decode_dataProcessImm cc .mov 0#1 rd 0#4
      (imm.setWidth 8) (by decide)
    rw [hbyte] at hdec
    have hsign : 0 ≤ imm.toInt := by
      simpa [BitVec.sle] using hs
    refine ⟨fun _ _ => ⟨_, hdec, ?_⟩, fun _ h => by omega,
      fun h => by omega⟩
    rw [expandImm_byte, hbyte]
  · next hs =>
    cases hw
    have hs' : (0#32).sle imm = false := by simpa using hs
    have hbyte := byte_of_lt (mvn_imm_lt hl hs')
    have hdec := decode_dataProcessImm cc .mvn 0#1 rd 0#4
      ((~~~imm).setWidth 8) (by decide)
    rw [hbyte] at hdec
    have hsign : imm.toInt < 0 := by
      simpa [BitVec.sle] using hs
    refine ⟨fun h => by omega, fun _ _ => ⟨_, hdec, ?_⟩,
      fun h => by omega⟩
    rw [expandImm_byte, hbyte, BitVec.not_not]

/-- `ag_emit_movldr_imm` means what it says, in every run with at most
512 literals and at every place in it, except for the load that ends the
code and whose literal starts the data. -/
theorem movldr_meaning_iff (ps : PageSize) {pre post : List Call}
    {cc : AgCond} {rd : BitVec 4} {imm : Word} {L : Listing}
    (hL : listing (pre ++ .movldrImm cc (rd.setWidth 32) imm :: post)
      = some L)
    (hown : OwnLabels (pre ++ .movldrImm cc (rd.setWidth 32) imm :: post))
    (hmem : L.Placed) (hd : L.data.length ≤ codebufferSize) :
    ∃ e code e' L₀ w,
      run (pre ++ .movldrImm cc (rd.setWidth 32) imm :: post) = some e
      ∧ agAllocCode ps e = some (code, e') ∧ listing pre = some L₀
      ∧ code.image[L₀.code.length]? = some w
      ∧ (PutsInRd code.image L.code.length L₀.code.length L₀.data.length
            cc.code rd imm w
          ↔ ¬ (needsLiteral imm = true ∧ LastLoadFirstLiteral L.code.length
            L₀.code.length L₀.data.length)) := by
  obtain ⟨e, code, e', he, hcode, himage⟩ := run_image ps hL hmem hd
  cases hl : needsLiteral imm with
  | true =>
      obtain ⟨L₀, hL₀, hit, hb, hdata⟩ := literal_stays hL hown hl
      have hw := image_load hit hb
      rw [← himage] at hw
      refine ⟨e, code, e', L₀, _, he, hcode, hL₀, hw, ?_⟩
      rw [himage]
      constructor
      · rintro hputs ⟨-, hlast⟩
        exact not_putsInRd_last hl hd hlast hputs
      · intro hnot
        refine putsInRd_load hl (Listing.image_literal hdata)
          (literalDistance_nonneg ?_ ?_)
        · exact (List.getElem?_eq_some_iff.mp hit).1
        · exact fun hlast => hnot ⟨rfl, hlast⟩
  | false =>
      obtain ⟨L₀, L₁, hL₀, hstep, hgrows⟩ := listing_split hL
      obtain ⟨w, hw⟩ : ∃ w, (Call.movldrImm cc (rd.setWidth 32) imm).word
          = some w := by
        simp only [Call.word, hl, Bool.false_eq_true, if_false]
        split <;> exact ⟨_, rfl⟩
      have hitem := hgrows.item (Listing.step_word hstep hw)
      have himg := Listing.image_getElem? hitem
      rw [← himage] at himg
      refine ⟨e, code, e', L₀, w, he, hcode, hL₀, himg, ?_⟩
      constructor
      · rintro - ⟨hneeds, -⟩
        cases hneeds
      · intro _
        exact putsInRd_byte hl hw

/-- A literal load followed by a return loads its literal. -/
theorem movldr_meaning_return :
    ∃ e code e' w,
      run [.movldrImm .condAl 0 256, .insn (.bx .condAl agLr)] = some e
      ∧ agAllocCode .default e = some (code, e')
      ∧ code.image[0]? = some w
      ∧ PutsInRd code.image 2 0 0 AgCond.condAl.code 0 256 w := by
  have hL : listing ([] ++ .movldrImm .condAl ((0#4).setWidth 32) 256
      :: [.insn (.bx .condAl agLr)])
      = some ⟨[.load .condAl 0 0, .plain 0xe12fff1e#32], [256#32],
          [.data 0]⟩ := by decide
  obtain ⟨e, code, e', L₀, w, he, hcode, hL₀, hw, hiff⟩ :=
    movldr_meaning_iff .default hL (by decide)
      (Listing.placed_of_fits (by decide)) (by decide)
  cases hL₀
  refine ⟨e, code, e', w, he, hcode, hw, hiff.mpr ?_⟩
  rintro ⟨-, hlast, -⟩
  exact absurd hlast (by decide)

/-- A literal load on its own ends the code in front of the first
literal, and loads another register from past the image. -/
theorem movldr_alone :
    ∃ e code e', run [.movldrImm .condAl 0 256] = some e
      ∧ agAllocCode .default e = some (code, e')
      ∧ code.image[0]? = some 0xe59f1ffc#32
      ∧ literalDistance 1 0 0 = -4
      ∧ ¬ PutsInRd code.image 1 0 0 AgCond.condAl.code 0 256
          0xe59f1ffc#32 := by
  have hL : listing [.movldrImm .condAl 0 256]
      = some ⟨[.load .condAl ((0#4).setWidth 32) 0], [256#32],
          [.data 0]⟩ := by decide
  obtain ⟨e, code, e', he, hcode, himage⟩ := run_image .default hL
    (Listing.placed_of_fits (by decide)) (by decide)
  have hload : loadWord AgCond.condAl.code 0 (offset13
      (literalDistance 1 0 0)) = 0xe59f1ffc#32 := by decide
  refine ⟨e, code, e', he, hcode, ?_, by decide, ?_⟩
  · rw [himage]
    decide
  · rw [himage, ← hload]
    exact not_putsInRd_last (by decide) (by decide) ⟨rfl, rfl⟩

end UdeBench.Ag
