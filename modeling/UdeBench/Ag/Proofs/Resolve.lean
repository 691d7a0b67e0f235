/-
Label resolution: the image `ag_alloc_code` returns is the listing's.

The loop patches one reference at a time into a mapping that already
holds every word as emitted. Each reference names the code index of its
own item, so the patches never meet, and walking the items in order
(`resolveLabels_items`) the words before the walk are final, those after
it still as emitted.

`pos(L) - i - 2` is computed at two places with 32-bit wraparound: at
emission when the label already stands in the code, and here. Both keep
the low 24 bits, where the wraparound cannot be seen (`offset24`).
-/
import UdeBench.Ag.Proofs.Layout

namespace UdeBench.Ag

open A32 (Word)

-- ============================================================ valid items

/-- The label an item refers to. -/
def Item.label : Item → Option Nat
  | plain _ => none
  | jump _ _ dst _ => some dst
  | load _ _ lbl => some lbl

/-- Every item's label is in the table. -/
def Listing.LabelsKnown (L : Listing) : Prop :=
  ∀ it ∈ L.code, ∀ id ∈ it.label, id < L.labels.length

theorem Item.label_jumpTo (cc : AgCond) (l : Word) (dst : Nat)
    (b : Binding) : (Item.jumpTo cc l dst b).label = some dst := by
  cases b <;> rfl

/-- A call keeps the items' labels in the table: labels are never
removed. -/
theorem Listing.LabelsKnown.step {L L' : Listing} (hL : L.LabelsKnown)
    (hstep : L.Step L') : L'.LabelsKnown := by
  -- items already there keep their labels in a longer table
  have hold : ∀ {labels : List Binding},
      L.labels.length ≤ labels.length →
      ∀ it ∈ L.code, ∀ id ∈ it.label, id < labels.length :=
    fun hle it hit id hid => Nat.lt_of_lt_of_le (hL it hit id hid) hle
  cases hstep with
  | same => exact hL
  | plain w =>
      intro it hit id hid
      rcases List.mem_append.mp hit with hit | hit
      · exact hL it hit id hid
      · rw [List.mem_singleton.mp hit] at hid
        cases hid
  | jump cc l dst b hb =>
      intro it hit id hid
      rcases List.mem_append.mp hit with hit | hit
      · exact hL it hit id hid
      · rw [List.mem_singleton.mp hit, Item.label_jumpTo] at hid
        cases hid
        exact (List.getElem?_eq_some_iff.mp hb).1
  | literal cc rd imm hl =>
      intro it hit id hid
      show id < (L.labels ++ [Binding.data L.data.length]).length
      rw [List.length_append, List.length_singleton]
      rcases List.mem_append.mp hit with hit | hit
      · exact Nat.lt_succ_of_lt (hL it hit id hid)
      · rw [List.mem_singleton.mp hit] at hid
        cases hid
        exact Nat.lt_succ_self _
  | bind id b hid hb =>
      exact hold (by simp [Listing.bind])
  | newLabel b hb =>
      exact hold (by simp [Listing.newLabel])

theorem labelsKnown_empty : Listing.empty.LabelsKnown := by
  intro it hit
  cases hit

/-- A run's items refer to labels of the table. -/
theorem labelsKnown {cs : List Call} {L : Listing}
    (h : listing cs = some L) : L.LabelsKnown :=
  listing_induct labelsKnown_empty (fun _ _ hL hstep => hL.step hstep) h

-- ==================================================== one reference at a time

/-- The position the loop computes for a label. -/
theorem labelPos_eq (b : Binding) {size : Nat}
    (h : instSize * size < 2 ^ 32) :
    (if b.label.state = .emittedData then
        b.label.offset
          + (BitVec.ofNat 32 (instSize * size) >>> 2)
      else b.label.offset) = b.offset size := by
  have hshift : BitVec.ofNat 32 (instSize * size) >>> 2
      = BitVec.ofNat 32 size := by
    simp only [instSize] at h ⊢
    apply BitVec.eq_of_toNat_eq
    rw [BitVec.toNat_ushiftRight, BitVec.toNat_ofNat, BitVec.toNat_ofNat,
      Nat.shiftRight_eq_div_pow]
    omega
  cases b with
  | unbound u => rfl
  | code n => rfl
  | data n =>
      rw [hshift]
      rfl

/-- One turn of the loop finishes the word of its item. -/
theorem resolveRef_eq {labels : List Binding} {size : Nat}
    {A C : List Word} {it : Item} {lr : LabelRef}
    (hsize : instSize * size < 2 ^ 32) (hA : A.length < 2 ^ 32)
    (hlr : it.ref A.length = some lr)
    (hlabel : ∀ id ∈ it.label, id < labels.length) :
    resolveRef (BitVec.ofNat 32 (instSize * size))
        (labels.map Binding.label) (A ++ it.emitted A.length :: C) lr
      = some (A ++ it.final labels size A.length :: C) := by
  have hidx : (BitVec.ofNat 32 A.length).toNat = A.length := by
    rw [BitVec.toNat_ofNat, Nat.mod_eq_of_lt hA]
  cases it with
  | plain w => cases hlr
  | jump cc l dst known =>
      cases known with
      | some n => cases hlr
      | none =>
          cases hlr
          obtain ⟨b, hb⟩ : ∃ b, labels[dst]? = some b :=
            ⟨_, List.getElem?_eq_getElem (hlabel dst rfl)⟩
          unfold resolveRef
          simp only [List.getElem?_map, hb, Option.map_some, hidx,
            List.getElem?_append_right (Nat.le_refl _), Nat.sub_self,
            List.getElem?_cons_zero, labelPos_eq b hsize,
            List.set_append_right _ _ (Nat.le_refl _), List.set_cons_zero]
          simp only [Item.final, hb]
          rfl
  | load cc rd lbl =>
      cases hlr
      obtain ⟨b, hb⟩ : ∃ b, labels[lbl]? = some b :=
        ⟨_, List.getElem?_eq_getElem (hlabel lbl rfl)⟩
      unfold resolveRef
      simp only [List.getElem?_map, hb, Option.map_some, hidx,
        List.getElem?_append_right (Nat.le_refl _), Nat.sub_self,
        List.getElem?_cons_zero, labelPos_eq b hsize,
        List.set_append_right _ _ (Nat.le_refl _), List.set_cons_zero]
      simp only [Item.final, hb]
      rfl

/-- An item without a reference is final as emitted. -/
theorem Item.final_of_ref_none {it : Item} {i : Nat}
    (h : it.ref i = none) (labels : List Binding) (size : Nat) :
    it.final labels size i = it.emitted i := by
  cases it with
  | plain w => rfl
  | jump cc l dst known =>
      cases known with
      | some n => rfl
      | none => cases h
  | load cc rd lbl => cases h

/-- The loop walks the items: the words before it are final, those from
it on as emitted. Induction on the items left, the finished words
growing with each. -/
theorem resolveLabels_items {labels : List Binding} {size : Nat}
    (hsize : instSize * size < 2 ^ 32) :
    ∀ (its : List Item) (A C : List Word),
      (∀ it ∈ its, ∀ id ∈ it.label, id < labels.length) →
      A.length + its.length < 2 ^ 32 →
      resolveLabels (BitVec.ofNat 32 (instSize * size))
          (labels.map Binding.label)
          (A ++ its.mapIdx (fun j it => it.emitted (A.length + j)) ++ C)
          ((its.mapIdx fun j it => it.ref (A.length + j)).filterMap id)
        = some (A ++ its.mapIdx
            (fun j it => it.final labels size (A.length + j)) ++ C) := by
  intro its
  induction its with
  | nil => intro A C _ _; rfl
  | cons it its ih =>
      intro A C hknown hlt
      rw [List.length_cons] at hlt
      have hshift : ∀ j, A.length + (j + 1)
          = (A ++ [it.final labels size A.length]).length + j := by
        intro j
        rw [List.length_append, List.length_singleton]
        omega
      have hrest := ih (A ++ [it.final labels size A.length]) C
        (fun x hx => hknown x (List.mem_cons_of_mem _ hx))
        (by rw [List.length_append, List.length_singleton]; omega)
      simp only [← hshift, List.append_assoc, List.cons_append,
        List.nil_append] at hrest
      simp only [List.mapIdx_cons, Nat.add_zero, List.append_assoc,
        List.cons_append]
      cases hlr : it.ref A.length with
      | none =>
          rw [List.filterMap_cons_none rfl, ← hrest,
            Item.final_of_ref_none hlr]
      | some lr =>
          rw [List.filterMap_cons_some (f := id) (a := some lr) rfl]
          unfold resolveLabels
          rw [resolveRef_eq hsize (by omega) hlr
            (hknown it List.mem_cons_self)]
          exact hrest

-- ============================================================== the image

/-- The words of the finished image, by index. -/
theorem Listing.image_getElem? {L : Listing} {i : Nat} {it : Item}
    (h : L.code[i]? = some it) :
    L.image[i]? = some (it.final L.labels L.code.length i) := by
  have hlt : i < L.code.length := (List.getElem?_eq_some_iff.mp h).1
  unfold image finalCode
  rw [List.getElem?_append_left (by rw [List.length_mapIdx]; exact hlt),
    List.getElem?_mapIdx, h]
  rfl

/-- `ag_alloc_code` returns the image of the listing. -/
theorem agAllocCode_eq (ps : PageSize) {e : Emitter} {L : Listing}
    (h : Sim e L) (hknown : L.LabelsKnown) (hmem : L.Placed) :
    ∃ code e', agAllocCode ps e = some (code, e') ∧ code.image = L.image
      ∧ code.retSize.toNat
        = instSize * (L.code.length + L.data.length) := by
  have hfits := hmem.fits
  have hsize : (BitVec.ofNat 32
      (instSize * (L.code.length + L.data.length))).toNat
      = instSize * (L.code.length + L.data.length) := by
    rw [BitVec.toNat_ofNat, Nat.mod_eq_of_lt (by omega)]
  obtain ⟨z, hz⟩ := assembleCode_eq ps h hmem
  unfold agAllocCode
  rw [hz]
  by_cases h0 : BitVec.ofNat 32
      (instSize * (L.code.length + L.data.length)) = 0#32
  · -- an empty image has nothing to patch
    have hn := hsize
    rw [h0] at hn
    simp only [instSize, BitVec.toNat_ofNat] at hn
    have hcode : L.code = [] := List.eq_nil_of_length_eq_zero (by omega)
    have hdata : L.data = [] := List.eq_nil_of_length_eq_zero (by omega)
    simp only [if_pos h0]
    refine ⟨_, e, rfl, ?_, hsize⟩
    rw [assembled_image hmem]
    simp [Listing.image, Listing.finalCode, Listing.emitted, hcode, hdata]
  · simp only [if_neg h0]
    have hcode : instSize * L.code.length < 2 ^ 32 := by
      simp only [instSize] at *
      omega
    have hres := resolveLabels_items hcode
      L.code [] (L.data ++ List.replicate z 0#32) hknown
      (by simp only [List.length_nil, instSize] at *; omega)
    simp only [List.length_nil, Nat.zero_add, List.nil_append,
      ← List.append_assoc] at hres
    rw [h.byteCountCode, h.labels, h.refs]
    have hgo : resolveLabels
        (BitVec.ofNat 32 (instSize * L.code.length))
        (L.labels.map Binding.label)
        (L.emitted ++ L.data ++ List.replicate z 0#32) L.refs
        = some (L.finalCode ++ L.data ++ List.replicate z 0#32) := hres
    rw [hgo]
    refine ⟨_, _, rfl, ?_, hsize⟩
    unfold Code.image
    rw [hsize, Nat.mul_div_cancel_left _ (by decide)]
    apply List.take_left'
    rw [List.length_append, Listing.length_finalCode]

/-- A run with at most 512 literals ends in an image, the listing's. -/
theorem run_image (ps : PageSize) {cs : List Call} {L : Listing}
    (hL : listing cs = some L) (hmem : L.Placed)
    (hd : L.data.length ≤ codebufferSize) :
    ∃ e code e', run cs = some e ∧ agAllocCode ps e = some (code, e')
      ∧ code.image = L.image := by
  obtain ⟨e, he, hsim⟩ := run_eq_some hL hd
  obtain ⟨code, e', hcode, himage, -⟩ :=
    agAllocCode_eq ps hsim (labelsKnown hL) hmem
  exact ⟨e, code, e', he, hcode, himage⟩

end UdeBench.Ag
