/-
What a run of emitter calls is for: the assembly listing it writes down.
A listing is the sequence of items a programmer meant (a plain word, a
jump to a label, a literal load), the literals, and where each label
stands. It has no blocks, no counters and no pending references.

`Listing.image` is the code the listing stands for once every position
is known. The emitter keeps none of this: it encodes what it can at
once, remembers the rest and patches it at the end. Proofs/Refine.lean
shows that the two agree.

A jump records whether its label already stood in the code when it was
emitted, because `ag_emit_branch` encodes the offset then and never
looks again: a label bound a second time moves only the jumps emitted
after.
-/
import UdeBench.Ag.Emitter

namespace UdeBench.Ag

open A32 (Word)

-- ============================================================ positions

/-- Where a label stands: nowhere yet (its offset field uninitialised),
before a code word, or before a literal. -/
inductive Binding
  | unbound (uninit : Word)
  | code (n : Nat)
  | data (n : Nat)
deriving DecidableEq, Repr

/-- The label's word position in an image with `size` code words: code
first, literals after. -/
def Binding.pos (size : Nat) : Binding → Option Nat
  | unbound _ => none
  | code n => some n
  | data n => some (size + n)

/-- The label record that stands for the binding. -/
def Binding.label : Binding → Label
  | unbound u => ⟨.notEmitted, u⟩
  | code n => ⟨.emitted, BitVec.ofNat 32 n⟩
  | data n => ⟨.emittedData, BitVec.ofNat 32 n⟩

-- ================================================================ items

/-- One code word of the listing. -/
inductive Item
  | plain (w : Word)
  | jump (cc : AgCond) (l : Word) (dst : Nat) (known : Option Nat)
  | load (cc : AgCond) (rd : Word) (lbl : Nat)
deriving DecidableEq, Repr

/-- The word handed to `ag_emit4` for the item at code index `i`. -/
def Item.emitted (i : Nat) : Item → Word
  | plain w => w
  | jump cc l _ (some n) =>
      branchWord cc l (BitVec.ofNat 32 n - BitVec.ofNat 32 i - 2#32)
  | jump cc l _ none => branchWord cc l 0#32
  | load cc rd _ => ldrstrImmWord agLdrImm cc rd agPc 0 0

/-- The reference left pending for the item at code index `i`. -/
def Item.ref (i : Nat) : Item → Option LabelRef
  | jump _ _ dst none => some ⟨.branch, BitVec.ofNat 32 i, dst⟩
  | load _ _ lbl => some ⟨.ldr, BitVec.ofNat 32 i, lbl⟩
  | _ => none

-- ============================================================== listings

/-- An assembly listing. -/
structure Listing where
  code : List Item
  data : List Word
  labels : List Binding
deriving DecidableEq, Repr

/-- The empty listing. -/
def Listing.empty : Listing := ⟨[], [], []⟩

/-- One more item at the end of the code. -/
def Listing.emit (L : Listing) (it : Item) : Listing :=
  { L with code := L.code ++ [it] }

/-- A label moved to a new place. -/
def Listing.bind (L : Listing) (id : Nat) (b : Binding) : Listing :=
  { L with labels := L.labels.set id b }

/-- A new label. -/
def Listing.newLabel (L : Listing) (b : Binding) : Listing :=
  { L with labels := L.labels ++ [b] }

/-- The item a literal-sized or byte-sized immediate is loaded by. -/
def Listing.movldr (L : Listing) (cc : AgCond) (rd imm : Word) : Listing :=
  if needsLiteral imm then
    { code := L.code ++ [.load cc rd L.labels.length]
      data := L.data ++ [imm]
      labels := L.labels ++ [.data L.data.length] }
  else if (0#32).sle imm then
    L.emit (.plain (dataProcessImmWord cc .mov 0 rd 0 imm))
  else L.emit (.plain (dataProcessImmWord cc .mvn 0 rd 0 (~~~imm)))

/-- The jump to a label that stands at `b`. -/
def Item.jumpTo (cc : AgCond) (l : Word) (dst : Nat) : Binding → Item
  | .code n => .jump cc l dst (some n)
  | _ => .jump cc l dst none

/-- One call written down; `none` if it names a label that is not in
the table. -/
def Listing.step (L : Listing) : Call → Option Listing
  | .insn i => some (L.emit (.plain i.word))
  | .dataProcessImm cc opc s rd rn imm =>
      if imm &&& 0xffffff00#32 ≠ 0#32 then some L
      else some (L.emit (.plain (dataProcessImmWord cc opc s rd rn imm)))
  | .branch cc l dst =>
      match L.labels[dst]? with
      | none => none
      | some b => some (L.emit (.jumpTo cc l dst b))
  | .movldrImm cc rd imm => some (L.movldr cc rd imm)
  | .label id =>
      if id < L.labels.length then some (L.bind id (.code L.code.length))
      else none
  | .dataLabel id =>
      if id < L.labels.length then some (L.bind id (.data L.data.length))
      else none
  | .allocLabel uninit => some (L.newLabel (.unbound uninit))
  | .newLabel => some (L.newLabel (.code L.code.length))
  | .newDataLabel => some (L.newLabel (.data L.data.length))

/-- A run of calls written down after what is there. -/
def Listing.run (L : Listing) : List Call → Option Listing
  | [] => some L
  | c :: cs =>
      match L.step c with
      | none => none
      | some L => L.run cs

/-- The listing of a run of calls. -/
def listing (cs : List Call) : Option Listing := Listing.empty.run cs

/-- The words handed to `ag_emit4`, in order. -/
def Listing.emitted (L : Listing) : List Word :=
  L.code.mapIdx fun i it => it.emitted i

/-- The pending references, in order. -/
def Listing.refs (L : Listing) : List LabelRef :=
  (L.code.mapIdx fun i it => it.ref i).filterMap id

-- ================================================================ images

/-- The offset a label stands at for a reference, in the emitter's
arithmetic: an unbound label has whatever its field held. -/
def Binding.offset (size : Nat) : Binding → Word
  | unbound u => u
  | code n => BitVec.ofNat 32 n
  | data n => BitVec.ofNat 32 n + BitVec.ofNat 32 size

/-- The word distance a reference at code index `i` is patched with. -/
def Binding.delta (size i : Nat) (b : Binding) : Word :=
  b.offset size - BitVec.ofNat 32 i - 2#32

/-- An emitted word with a branch offset patched in. -/
def patchBranch (inst d : Word) : Word :=
  (inst &&& 0xff000000#32) ||| (d &&& 0x00ffffff#32)

/-- An emitted word with a literal's word distance patched in, under
the source's masks: the low 12 bits cleared, the low 13 of the byte
distance put in. -/
def patchLdr (inst d : Word) : Word :=
  (inst &&& ((~~~0#32) <<< 12)) ||| ((d * 4#32) &&& 0x001fff#32)

/-- The word of the item at index `i` once the labels are placed in an
image of `size` code words. -/
def Item.final (labels : List Binding) (size i : Nat) (it : Item) : Word :=
  match it with
  | plain w => w
  | jump _ _ _ (some _) => it.emitted i
  | jump _ _ dst none =>
      match labels[dst]? with
      | none => it.emitted i
      | some b => patchBranch (it.emitted i) (b.delta size i)
  | load _ _ lbl =>
      match labels[lbl]? with
      | none => it.emitted i
      | some b => patchLdr (it.emitted i) (b.delta size i)

/-- The code words of the finished image. -/
def Listing.finalCode (L : Listing) : List Word :=
  L.code.mapIdx fun i it => it.final L.labels L.code.length i

/-- The finished image: code, then literals. -/
def Listing.image (L : Listing) : List Word := L.finalCode ++ L.data

-- ================================================ small lemmas of the run

@[simp] theorem Listing.run_nil (L : Listing) : L.run [] = some L := rfl

theorem Listing.run_cons (L : Listing) (c : Call) (cs : List Call) :
    L.run (c :: cs) = (L.step c).bind fun L' => L'.run cs := by
  cases h : L.step c <;> simp [Listing.run, h]

theorem Listing.run_append (L : Listing) (cs ds : List Call) :
    L.run (cs ++ ds) = (L.run cs).bind fun L' => L'.run ds := by
  induction cs generalizing L with
  | nil => rfl
  | cons c cs ih =>
      rw [List.cons_append, run_cons, run_cons]
      cases L.step c with
      | none => rfl
      | some L' => exact ih L'

/-- The listing of a longer run is one step from the shorter one's. -/
theorem listing_snoc (cs : List Call) (c : Call) :
    listing (cs ++ [c]) = (listing cs).bind fun L => L.step c := by
  unfold listing
  rw [Listing.run_append]
  congr 1
  funext L
  rw [Listing.run_cons]
  cases L.step c <;> rfl

@[simp] theorem Listing.length_emitted (L : Listing) :
    L.emitted.length = L.code.length := List.length_mapIdx

@[simp] theorem Listing.length_finalCode (L : Listing) :
    L.finalCode.length = L.code.length := List.length_mapIdx

@[simp] theorem Listing.length_image (L : Listing) :
    L.image.length = L.code.length + L.data.length := by
  unfold image
  rw [List.length_append, length_finalCode]

/-- An appended item appends its word. -/
theorem Listing.emitted_emit (L : Listing) (it : Item) :
    (L.emit it).emitted = L.emitted ++ [it.emitted L.code.length] := by
  unfold emitted emit
  rw [List.mapIdx_concat]

/-- An appended item appends its reference, if it leaves one. -/
theorem Listing.refs_emit (L : Listing) (it : Item) :
    (L.emit it).refs = L.refs ++ (it.ref L.code.length).toList := by
  unfold refs emit
  rw [List.mapIdx_concat, List.filterMap_append]
  cases it.ref L.code.length <;> rfl

/-- A listing only grows: what was written down stays where it is. -/
structure Listing.Grows (L L' : Listing) : Prop where
  code : L.code <+: L'.code
  data : L.data <+: L'.data

theorem Listing.Grows.refl (L : Listing) : L.Grows L :=
  ⟨List.prefix_rfl, List.prefix_rfl⟩

theorem Listing.Grows.trans {L L' L'' : Listing} (h : L.Grows L')
    (h' : L'.Grows L'') : L.Grows L'' :=
  ⟨h.code.trans h'.code, h.data.trans h'.data⟩

/-- An item keeps its index. -/
theorem Listing.Grows.item {L L' : Listing} (h : L.Grows L') {i : Nat}
    {it : Item} (hi : L.code[i]? = some it) : L'.code[i]? = some it := by
  obtain ⟨t, ht⟩ := h.code
  rw [← ht, List.getElem?_append_left
    (List.getElem?_eq_some_iff.mp hi).1, hi]

/-- A literal keeps its index. -/
theorem Listing.Grows.literal {L L' : Listing} (h : L.Grows L') {i : Nat}
    {w : Word} (hi : L.data[i]? = some w) : L'.data[i]? = some w := by
  obtain ⟨t, ht⟩ := h.data
  rw [← ht, List.getElem?_append_left
    (List.getElem?_eq_some_iff.mp hi).1, hi]

/-- Everything one call can do to a listing, and what it has checked
when it does it. -/
inductive Listing.Step (L : Listing) : Listing → Prop
  | same : Step L L
  | plain (w : Word) : Step L (L.emit (.plain w))
  | jump (cc : AgCond) (l : Word) (dst : Nat) (b : Binding)
      (hb : L.labels[dst]? = some b) :
      Step L (L.emit (.jumpTo cc l dst b))
  | literal (cc : AgCond) (rd imm : Word) (hl : needsLiteral imm = true) :
      Step L { code := L.code ++ [.load cc rd L.labels.length]
               data := L.data ++ [imm]
               labels := L.labels ++ [.data L.data.length] }
  | bind (id : Nat) (b : Binding) (hid : id < L.labels.length)
      (hb : b = .code L.code.length ∨ b = .data L.data.length) :
      Step L (L.bind id b)
  | newLabel (b : Binding) (hb : (∃ u, b = .unbound u)
      ∨ b = .code L.code.length ∨ b = .data L.data.length) :
      Step L (L.newLabel b)

theorem Listing.step_inv {L L' : Listing} {c : Call}
    (h : L.step c = some L') : L.Step L' := by
  cases c with
  | insn i => cases h; exact .plain _
  | dataProcessImm cc opc s rd rn imm =>
      simp only [step] at h
      split at h <;> cases h
      · exact .same
      · exact .plain _
  | branch cc l dst =>
      simp only [step] at h
      split at h
      · cases h
      · next b hb => cases h; exact .jump cc l dst b hb
  | movldrImm cc rd imm =>
      cases h
      unfold movldr
      split
      · next hl => exact .literal cc rd imm hl
      · split <;> exact .plain _
  | label id =>
      simp only [step] at h
      split at h
      · next hid => cases h; exact .bind id _ hid (.inl rfl)
      · cases h
  | dataLabel id =>
      simp only [step] at h
      split at h
      · next hid => cases h; exact .bind id _ hid (.inr rfl)
      · cases h
  | allocLabel uninit => cases h; exact .newLabel _ (.inl ⟨uninit, rfl⟩)
  | newLabel => cases h; exact .newLabel _ (.inr (.inl rfl))
  | newDataLabel => cases h; exact .newLabel _ (.inr (.inr rfl))

/-- The one word of a call that is neither a branch nor a literal
load. -/
def Call.word : Call → Option Word
  | .insn i => some i.word
  | .dataProcessImm cc opc s rd rn imm =>
      if imm &&& 0xffffff00#32 ≠ 0#32 then none
      else some (dataProcessImmWord cc opc s rd rn imm)
  | .movldrImm cc rd imm =>
      if needsLiteral imm then none
      else if (0#32).sle imm then
        some (dataProcessImmWord cc .mov 0 rd 0 imm)
      else some (dataProcessImmWord cc .mvn 0 rd 0 (~~~imm))
  | _ => none

/-- Such a call writes down its word. -/
theorem Listing.step_word {L L' : Listing} {c : Call} {w : Word}
    (h : L.step c = some L') (hw : c.word = some w) :
    L'.code[L.code.length]? = some (.plain w) := by
  have hemit : ∀ w : Word,
      (L.emit (.plain w)).code[L.code.length]? = some (.plain w) := by
    intro w
    simp [emit]
  cases c with
  | insn i =>
      cases h
      cases hw
      exact hemit _
  | dataProcessImm cc opc s rd rn imm =>
      simp only [step, Call.word] at h hw
      split at hw
      · cases hw
      · next hfits =>
        rw [if_neg hfits] at h
        cases h
        cases hw
        exact hemit _
  | movldrImm cc rd imm =>
      cases h
      simp only [Call.word] at hw
      unfold movldr
      split at hw
      · cases hw
      · next hl =>
        rw [if_neg hl]
        split at hw <;> cases hw
        · next hs =>
          rw [if_pos hs]
          exact hemit _
        · next hs =>
          rw [if_neg hs]
          exact hemit _
  | branch cc l dst => cases hw
  | label id => cases hw
  | dataLabel id => cases hw
  | allocLabel uninit => cases hw
  | newLabel => cases hw
  | newDataLabel => cases hw

/-- One call only adds. -/
theorem Listing.Step.grows {L L' : Listing} (h : L.Step L') :
    L.Grows L' := by
  cases h with
  | same => exact Grows.refl L
  | plain w => exact ⟨List.prefix_append _ _, List.prefix_rfl⟩
  | jump cc l dst b _ => exact ⟨List.prefix_append _ _, List.prefix_rfl⟩
  | literal cc rd imm _ =>
      exact ⟨List.prefix_append _ _, List.prefix_append _ _⟩
  | bind id b _ _ => exact ⟨List.prefix_rfl, List.prefix_rfl⟩
  | newLabel b _ => exact ⟨List.prefix_rfl, List.prefix_rfl⟩

/-- What holds of the empty listing and survives every call holds of
every listing a run writes. -/
theorem listing_induct {P : Listing → Prop} (h0 : P Listing.empty)
    (hstep : ∀ L L', P L → L.Step L' → P L') {cs : List Call} :
    ∀ {L : Listing}, listing cs = some L → P L := by
  have hrun : ∀ (cs : List Call) (L₀ L : Listing), P L₀ →
      L₀.run cs = some L → P L := by
    intro cs
    induction cs with
    | nil =>
        intro L₀ L h₀ h
        cases h
        exact h₀
    | cons c cs ih =>
        intro L₀ L h₀ h
        rw [Listing.run_cons] at h
        obtain ⟨L₁, hc, hcs⟩ := Option.bind_eq_some_iff.mp h
        exact ih L₁ L (hstep L₀ L₁ h₀ (Listing.step_inv hc)) hcs
  intro L h
  exact hrun cs Listing.empty L h0 h

/-- A run only adds. -/
theorem Listing.run_grows {cs : List Call} :
    ∀ {L L' : Listing}, L.run cs = some L' → L.Grows L' := by
  induction cs with
  | nil =>
      intro L L' h
      cases h
      exact Grows.refl L
  | cons c cs ih =>
      intro L L' h
      rw [run_cons] at h
      obtain ⟨L₁, hstep, hrun⟩ := Option.bind_eq_some_iff.mp h
      exact (step_inv hstep).grows.trans (ih hrun)

/-- A prefix of a run has a listing, which the run's extends. -/
theorem listing_prefix {cs ds : List Call} {L : Listing}
    (h : listing (cs ++ ds) = some L) :
    ∃ L₀, listing cs = some L₀ ∧ L₀.Grows L := by
  unfold listing at h
  rw [Listing.run_append] at h
  obtain ⟨L₀, h₀, hrun⟩ := Option.bind_eq_some_iff.mp h
  exact ⟨L₀, h₀, Listing.run_grows hrun⟩

/-- The listings before and after one call of a run. -/
theorem listing_split {pre post : List Call} {c : Call} {L : Listing}
    (h : listing (pre ++ c :: post) = some L) :
    ∃ L₀ L₁, listing pre = some L₀ ∧ L₀.step c = some L₁
      ∧ L₁.Grows L := by
  unfold listing at h
  rw [Listing.run_append] at h
  obtain ⟨L₀, h₀, hrun⟩ := Option.bind_eq_some_iff.mp h
  rw [Listing.run_cons] at hrun
  obtain ⟨L₁, h₁, hpost⟩ := Option.bind_eq_some_iff.mp hrun
  exact ⟨L₀, L₁, h₀, h₁, Listing.run_grows hpost⟩

/-- What a listing's words, references and image are read off: equal
code gives equal words and references. -/
theorem Listing.emitted_congr {L L' : Listing} (h : L.code = L'.code) :
    L.emitted = L'.emitted ∧ L.refs = L'.refs := by
  unfold emitted refs
  rw [h]
  exact ⟨rfl, rfl⟩

end UdeBench.Ag
