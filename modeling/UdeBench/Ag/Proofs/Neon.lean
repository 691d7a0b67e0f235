/-
Whether a NEON three-register word says which call emitted it.

The word is an operation part, which the tables give, and fields for the
registers and `q`, which no operation part touches (`base_regFields`). The
fields give the operands back. The operation part gives the emitter back
for every row of the tables but the first two: vadd and vmla name the
same opcode constants, so each of their words is emitted by both.
-/
import UdeBench.Ag.Proofs.Decode
import UdeBench.Ag.Vr3

namespace UdeBench.Ag

open A32 (Word)
open Bits

-- ================================================================== calls

/-- A call of a generated emitter with register numbers in range: 0 to
31 for D registers, 0 to 15 for Q registers. -/
structure Vr3Call where
  f : Vr3Emitter
  hf : f ∈ vr3Emitters
  q : BitVec 1
  vd : BitVec 5
  vn : BitVec 5
  vm : BitVec 5
  range : q = 1#1 → vd < 16 ∧ vn < 16 ∧ vm < 16
deriving DecidableEq

/-- The emitter called. -/
def Vr3Call.emit (c : Vr3Call) (e : Emitter) : Option Emitter :=
  c.f.emit e (c.q.setWidth 32) (c.vd.setWidth 32) (c.vn.setWidth 32)
    (c.vm.setWidth 32)

/-- The word it emits. -/
def Vr3Call.word (c : Vr3Call) : Word :=
  vr3Word c.f.opc (c.q.setWidth 32) c.f.size (c.vd.setWidth 32)
    (c.vn.setWidth 32) (c.vm.setWidth 32)

theorem Vr3Call.emit_eq (c : Vr3Call) (e : Emitter) :
    c.emit e = agEmit4 e c.word := rfl

-- ===================================================== the operation part

/-- The operation part of an emitter's words. -/
def Vr3Emitter.base (f : Vr3Emitter) : Word := (f.size <<< 20) ||| f.opc

/-- The fields of the registers and of `q`: position and width. -/
def regFields : List (Nat × Nat) :=
  [(22, 1), (16, 4), (12, 4), (7, 1), (6, 1), (5, 1), (0, 4)]

/-- The windows between them. -/
def opFields : List (Nat × Nat) := [(23, 5), (20, 2), (8, 4), (4, 1)]

/-- An operation part has no bit in the register fields. -/
theorem base_regFields : ∀ f ∈ vr3Emitters, ∀ r ∈ regFields,
    bits f.base r.1 r.2 = 0 := by
  decide

/-- The two rows with one pair of opcodes. -/
def Vr3Emitter.Shared (f : Vr3Emitter) : Prop :=
  f.name = .vadd ∨ f.name = .vmla

instance (f : Vr3Emitter) : Decidable f.Shared :=
  inferInstanceAs (Decidable (_ ∨ _))

/-- Outside those rows the operation part names its emitter. -/
theorem base_inj : ∀ f ∈ vr3Emitters, ∀ g ∈ vr3Emitters, ¬ f.Shared →
    (∀ r ∈ opFields, bits g.base r.1 r.2 = bits f.base r.1 r.2) →
    g = f := by
  decide

/-- In those rows another emitter has the operation part too. -/
theorem shared_base : ∀ f ∈ vr3Emitters, f.Shared →
    ∃ g ∈ vr3Emitters, g ≠ f ∧ g.opc = f.opc ∧ g.size = f.size := by
  decide

-- ======================================================= the register part

/-- The D register number of an operand: a Q register is two. -/
def dreg (q : BitVec 1) (v : BitVec 5) : BitVec 5 :=
  if q = 1#1 then v <<< 1 else v

/-- Doubling in 32 bits is doubling in the width of the field. -/
theorem dreg_setWidth (q : BitVec 1) (v : BitVec 5)
    (h : q = 1#1 → v < 16) :
    (if q.setWidth 32 ≠ 0#32 then (v.setWidth 32 : Word) <<< 1
      else v.setWidth 32) = (dreg q v).setWidth 32 := by
  revert q v
  decide

/-- An operand in range is known from its D register. -/
theorem dreg_inj {q : BitVec 1} {v w : BitVec 5}
    (hv : q = 1#1 → v < 16) (hw : q = 1#1 → w < 16)
    (h : dreg q v = dreg q w) : v = w := by
  revert q v w
  decide

/-- The registers and `q` in their fields, under the unconditional
condition. -/
def regWord (q : BitVec 1) (d n m : BitVec 5) : Word :=
  (0xf#32 <<< 28) ||| ((bits d 4 1).setWidth 32 <<< 22)
    ||| ((bits n 0 4).setWidth 32 <<< 16)
    ||| ((bits d 0 4).setWidth 32 <<< 12)
    ||| ((bits n 4 1).setWidth 32 <<< 7) ||| (q.setWidth 32 <<< 6)
    ||| ((bits m 4 1).setWidth 32 <<< 5) ||| (bits m 0 4).setWidth 32

/-- The encoder's ORs, with the operation part in front. -/
theorem or_regroup (cond dh size nl dl opc nh q mh ml : Word) :
    cond ||| dh ||| size ||| nl ||| dl ||| opc ||| nh ||| q ||| mh ||| ml
      = (size ||| opc)
        ||| (cond ||| dh ||| nl ||| dl ||| nh ||| q ||| mh ||| ml) := by
  ac_rfl

/-- A word is its operation part and its register part. -/
theorem Vr3Call.word_eq (c : Vr3Call) :
    c.word = c.f.base ||| regWord c.q (dreg c.q c.vd) (dreg c.q c.vn)
      (dreg c.q c.vm) := by
  have hd := dreg_setWidth c.q c.vd fun h => (c.range h).1
  have hn := dreg_setWidth c.q c.vn fun h => (c.range h).2.1
  have hm := dreg_setWidth c.q c.vm fun h => (c.range h).2.2
  unfold word vr3Word regWord Vr3Emitter.base
  dsimp only
  rw [hd, hn, hm]
  rw [reg_low, reg_low, reg_low, reg_high, reg_high, reg_high]
  exact or_regroup ..

/-- No register part has a bit in the operation's windows. -/
theorem regWord_opFields (q : BitVec 1) (d n m : BitVec 5) :
    ∀ r ∈ opFields, bits (regWord q d n m) r.1 r.2 = 0 := by
  intro r hr
  simp only [opFields, List.mem_cons, List.not_mem_nil, or_false] at hr
  unfold regWord
  rcases hr with rfl | rfl | rfl | rfl <;> simp

/-- The register fields of a call's word are the register part's. -/
theorem Vr3Call.bits_word (c : Vr3Call) {r : Nat × Nat}
    (hr : r ∈ regFields) :
    bits c.word r.1 r.2 = bits (regWord c.q (dreg c.q c.vd)
      (dreg c.q c.vn) (dreg c.q c.vm)) r.1 r.2 := by
  rw [c.word_eq, bits_or, base_regFields c.f c.hf r hr]
  exact BitVec.zero_or

/-- A D register number is known from its two parts. -/
theorem reg_eq {v w : BitVec 5} (hh : bits v 4 1 = bits w 4 1)
    (hl : bits v 0 4 = bits w 0 4) : v = w := by
  rw [← reg_join v, ← reg_join w, hh, hl]

/-- Equal words have equal operands. -/
theorem Vr3Call.operands_inj {c c' : Vr3Call} (h : c'.word = c.word) :
    c'.q = c.q ∧ c'.vd = c.vd ∧ c'.vn = c.vn ∧ c'.vm = c.vm := by
  have hfield : ∀ r ∈ regFields,
      bits (regWord c'.q (dreg c'.q c'.vd) (dreg c'.q c'.vn)
          (dreg c'.q c'.vm)) r.1 r.2
        = bits (regWord c.q (dreg c.q c.vd) (dreg c.q c.vn)
          (dreg c.q c.vm)) r.1 r.2 := by
    intro r hr
    rw [← c'.bits_word hr, ← c.bits_word hr, h]
  have hq := hfield (6, 1) (by decide)
  have hdh := hfield (22, 1) (by decide)
  have hdl := hfield (12, 4) (by decide)
  have hnh := hfield (7, 1) (by decide)
  have hnl := hfield (16, 4) (by decide)
  have hmh := hfield (5, 1) (by decide)
  have hml := hfield (0, 4) (by decide)
  simp only [regWord] at hq hdh hdl hnh hnl hmh hml
  have hq' : c'.q = c.q := by simpa using hq
  have hd : dreg c'.q c'.vd = dreg c.q c.vd :=
    reg_eq (by simpa using hdh) (by simpa using hdl)
  have hn : dreg c'.q c'.vn = dreg c.q c.vn :=
    reg_eq (by simpa using hnh) (by simpa using hnl)
  have hm : dreg c'.q c'.vm = dreg c.q c.vm :=
    reg_eq (by simpa using hmh) (by simpa using hml)
  have hrange := c'.range
  rw [hq'] at hd hn hm hrange
  refine ⟨hq', ?_, ?_, ?_⟩
  · exact dreg_inj (fun h => (hrange h).1) (fun h => (c.range h).1) hd
  · exact dreg_inj (fun h => (hrange h).2.1) (fun h => (c.range h).2.1) hn
  · exact dreg_inj (fun h => (hrange h).2.2) (fun h => (c.range h).2.2) hm

/-- Equal words have operation parts with equal windows. -/
theorem Vr3Call.base_windows {c c' : Vr3Call} (h : c'.word = c.word) :
    ∀ r ∈ opFields, bits c'.f.base r.1 r.2 = bits c.f.base r.1 r.2 := by
  have hwin : ∀ (c : Vr3Call), ∀ r ∈ opFields,
      bits c.word r.1 r.2 = bits c.f.base r.1 r.2 := by
    intro c r hr
    rw [c.word_eq, bits_or, regWord_opFields _ _ _ _ r hr]
    exact BitVec.or_zero
  intro r hr
  rw [← hwin c' r hr, ← hwin c r hr, h]

-- ================================================================ results

/-- The words of a call say which call it was, exactly when the
operation is neither vadd nor vmla. -/
theorem vr3_word_unique_iff (c : Vr3Call) :
    (∀ e, c.emit e = agEmit4 e c.word)
      ∧ ((∀ c' : Vr3Call, c'.word = c.word → c' = c)
        ↔ c.f.name ≠ .vadd ∧ c.f.name ≠ .vmla) := by
  refine ⟨c.emit_eq, ?_⟩
  have hshared : (c.f.name ≠ .vadd ∧ c.f.name ≠ .vmla)
      ↔ ¬ c.f.Shared := not_or.symm
  rw [hshared]
  constructor
  · intro h hs
    obtain ⟨g, hg, hne, hopc, hsize⟩ := shared_base c.f c.hf hs
    have hsame : Vr3Call.word { c with f := g, hf := hg } = c.word := by
      simp only [Vr3Call.word, hopc, hsize]
    have heq := h _ hsame
    exact hne (congrArg Vr3Call.f heq)
  · intro hs c' hw
    have hf := base_inj c.f c.hf c'.f c'.hf hs (Vr3Call.base_windows hw)
    obtain ⟨hq, hd, hn, hm⟩ := Vr3Call.operands_inj hw
    obtain ⟨f, hmem, q, vd, vn, vm, hr⟩ := c
    obtain ⟨f', hmem', q', vd', vn', vm', hr'⟩ := c'
    simp only at hf hq hd hn hm
    subst hf hq hd hn hm
    rfl

/-- `vadd.i32 d0, d1, d2`. -/
def vaddI32 : Vr3Call :=
  ⟨⟨.vadd, .i, 32, agNeonVr3Addi, 2⟩, by decide, 0, 0, 1, 2, by decide⟩

/-- `vmla.i32 d0, d1, d2`. -/
def vmlaI32 : Vr3Call :=
  ⟨⟨.vmla, .i, 32, agNeonVr3Addi, 2⟩, by decide, 0, 0, 1, 2, by decide⟩

/-- They are one word. -/
theorem vadd_eq_vmla :
    vaddI32.word = 0xf2210802#32 ∧ vmlaI32.word = vaddI32.word
      ∧ vmlaI32 ≠ vaddI32 := by
  decide

end UdeBench.Ag
