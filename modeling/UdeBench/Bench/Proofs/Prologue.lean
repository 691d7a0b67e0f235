/-
The setup of a generated function, executed: 29 instructions from the
first word to the loop head.

The caller provides the state `Entry` describes. What the setup leaves
is `AtHead`: the saved registers in the eight words below the old sp,
the NEON registers zero, and the counter at `num_loop` when its load is
right. A literal load out of reach still writes r10 or r11 only, both
saved, which is all `Saved` asks of it.
-/
import UdeBench.A32.Exec
import UdeBench.Bench.Proofs.Image
import UdeBench.Lib.Trace

namespace UdeBench.Bench

open A32 (Word State off site At Loaded step)
open Ag
open Bits
open Trace

variable (other : Word → State → Option State)
variable {image : List Word} {base : Word} {s₀ : State}

-- ============================================================ the caller

/-- The registers pushed, lowest first: r4 to r11. -/
def savedRegs : List (BitVec 4) := [4, 5, 6, 7, 8, 9, 10, 11]

/-- Where they are pushed to. -/
def savedAt (s₀ : State) : Word := s₀.r 13 - 32#32

/-- A call of the image at `base`: a word-aligned stack with eight words
of room outside the code. -/
structure Entry (image : List Word) (base : Word) (s₀ : State) : Prop where
  start : At image base 0 s₀
  aligned : base &&& 3#32 = 0#32
  sp_aligned : savedAt s₀ &&& 3#32 = 0#32
  stack : ∀ i, i < 32 → ∀ j, j < 4 * image.length →
    off base j ≠ off (savedAt s₀) i

/-- What stays as the push left it. -/
structure Saved (s₀ s : State) : Prop where
  mem : s.mem = A32.storeRegs s₀.mem s₀.r (savedAt s₀) savedRegs
  sp : s.r 13 = savedAt s₀
  lr : s.r 14 = s₀.r 14

/-- The state at the loop head. `m` is the length of the loop body. -/
structure AtHead (image : List Word) (base numLoop : Word) (m : Nat)
    (s₀ s : State) : Prop where
  here : At image base 29 s
  saved : Saved s₀ s
  cleared : ∀ v, s.d v = 0#64
  counter : (needsLiteral numLoop = true →
    literalDistance (33 + m) 1 0 ≤ 4095) → s.r 10 = numLoop

-- ============================================================ single words

theorem push_op : A32.decodeOp pushWord = some (0xe, .stmdb 13 0x0ff0) := by
  decide

theorem pop_op : A32.decodeOp popWord = some (0xe, .ldmia 13 0x0ff0) := by
  decide

theorem subs_op : A32.decodeOp subsWord = some (0xe, .subs 10 10 1) := by
  decide

theorem bx_op : A32.decodeOp (bxWord .condAl agLr) = some (0xe, .bx 14) := by
  decide

theorem regList_saved : A32.regList 0x0ff0 = savedRegs := by
  decide

theorem core_op : ∀ i, i < 10 →
    A32.decodeOp (coreWord i) = some (0xe, .mov (BitVec.ofNat 4 i) 0) := by
  decide

theorem neon_op : ∀ i, i < 16 → A32.decodeOp (neonWord i)
    = some (0xe, .vdup 1 (BitVec.ofNat 5 (2 * i)) 0) := by
  decide

/-- The thirteenth offset bit of a literal load reaches the low bit of
Rt, no other. -/
theorem rt_bit (y : BitVec 13) : bits y 12 4 = 0 ∨ bits y 12 4 = 1 := by
  have hy := y.isLt
  have hval := toNat_bits y 12 4
  rcases Nat.lt_or_ge y.toNat (2 ^ 12) with h | h
  · left
    apply BitVec.eq_of_toNat_eq
    show (bits y 12 4).toNat = 0
    omega
  · right
    apply BitVec.eq_of_toNat_eq
    show (bits y 12 4).toNat = 1
    omega

/-- A byte offset from the pc of the word at index `i`, in whole words. -/
theorem literal_address {i j : Nat} {offset : Int}
    (haligned : base &&& 3#32 = 0#32)
    (hoff : 4 * (i : Int) + 8 + offset = 4 * j) :
    (off (site base i) 8 &&& ~~~3#32) + BitVec.ofInt 32 offset
      = site base j := by
  have hpc : off (site base i) 8 = site base (i + 2) := by
    rw [site, A32.off_off, site, Nat.mul_add]
  have hal : site base (i + 2) &&& 3#32 = 0#32 :=
    A32.aligned_off haligned (i + 2)
  rw [hpc, A32.align_eq hal]
  apply BitVec.eq_of_toNat_eq
  unfold site off
  rw [BitVec.toNat_add, BitVec.toNat_add, BitVec.toNat_add,
    BitVec.toNat_ofNat, BitVec.toNat_ofNat, BitVec.toNat_ofInt]
  omega

/-- A load of the setup writes its register or the next one; in reach it
writes its value to its register. -/
theorem movldr_step {s : State} {n i k : Nat} {rd : BitVec 4}
    {imm w : Word} (hat : At image base i s)
    (haligned : base &&& 3#32 = 0#32) (hw : image[i]? = some w)
    (hmov : MovldrWord image n i k rd imm w) (hi : i + 2 ≤ n)
    (hrd : rd ≠ A32.rPc) (hrd' : rd ||| 1 ≠ A32.rPc) :
    ∃ rt x, step other s = some (s.setReg rt x).next
      ∧ (rt = rd ∨ rt = rd ||| 1)
      ∧ ((needsLiteral imm = true → literalDistance n i k ≤ 4095) →
          rt = rd ∧ x = imm) := by
  cases hl : needsLiteral imm with
  | true =>
      obtain ⟨hlit, rfl⟩ := hmov.literal hl
      have hd0 : 0 ≤ literalDistance n i k := by
        unfold literalDistance
        omega
      have hrt : rd ||| bits (offset13 (literalDistance n i k)) 12 4 = rd
          ∨ rd ||| bits (offset13 (literalDistance n i k)) 12 4
            = rd ||| 1 := by
        rcases rt_bit (offset13 (literalDistance n i k)) with h | h
        · left
          rw [h]
          exact BitVec.or_zero
        · right
          rw [h]
      have hop : A32.decodeOp (loadWord AgCond.condAl.code rd
          (offset13 (literalDistance n i k)))
          = some (0xe, .ldr
              (rd ||| bits (offset13 (literalDistance n i k)) 12 4) A32.rPc
              (A32.immOffset 1
                (bits (offset13 (literalDistance n i k)) 0 12))) := by
        rw [A32.decodeOp_loadStore (decode_loadWord .condAl rd _)]
        have hne : rd ||| bits (offset13 (literalDistance n i k)) 12 4
            ≠ A32.rPc := by
          rcases hrt with h | h
          · rw [h]
            exact hrd
          · rw [h]
            exact hrd'
        unfold A32.opOfLoadStore
        simp only [true_and, ne_eq, hne, not_false_eq_true]
        rfl
      refine ⟨_, _, (hat.step_op hw hop other).trans rfl, hrt, ?_⟩
      intro hreach
      obtain ⟨h12, h0⟩ := bits_of_distance hd0 (hreach rfl)
      refine ⟨?_, ?_⟩
      · rw [h12]
        exact BitVec.or_zero
      · have hoff : 4 * (i : Int) + 8 + A32.immOffset 1
            (bits (offset13 (literalDistance n i k)) 0 12)
            = 4 * (n + k : Nat) := by
          unfold A32.immOffset
          rw [if_pos (show (1 : BitVec 1) = 1#1 from rfl), h0]
          unfold literalDistance
          omega
        have haddr := literal_address haligned hoff
        have hread : (if A32.rPc = A32.rPc then s.read A32.rPc &&& ~~~3#32
            else s.read A32.rPc) = off (site base i) 8 &&& ~~~3#32 := by
          rw [if_pos rfl, State.read, if_pos rfl, hat.pc]
        show A32.load32 s.mem ((if A32.rPc = A32.rPc then
            s.read A32.rPc &&& ~~~3#32 else s.read A32.rPc) + _) = imm
        rw [hread, haddr, hat.loaded (n + k) imm hlit]
  | false =>
      have hputs : PutsInRd image n i k AgCond.condAl.code rd imm w :=
        putsInRd_byte hl (hmov.byte hl)
      have hbig := (needsLiteral_iff imm).not.mp (by rw [hl]; decide)
      rcases Int.lt_or_le imm.toInt 0 with hneg | hpos
      · obtain ⟨imm12, hdec, hval⟩ := hputs.mvn (by omega) (by omega)
        have hop : A32.decodeOp w
            = some (0xe, .mvn rd (A32.expandImm imm12)) := by
          rw [A32.decodeOp_dpImm hdec]
          unfold A32.opOfDpImm
          rw [if_neg hrd]
          rfl
        refine ⟨rd, _, (hat.step_op hw hop other).trans rfl, .inl rfl, ?_⟩
        intro _
        exact ⟨rfl, hval⟩
      · obtain ⟨imm12, hdec, hval⟩ := hputs.mov hpos (by omega)
        have hop : A32.decodeOp w
            = some (0xe, .mov rd (A32.expandImm imm12)) := by
          rw [A32.decodeOp_dpImm hdec]
          unfold A32.opOfDpImm
          rw [if_neg hrd]
          rfl
        refine ⟨rd, _, (hat.step_op hw hop other).trans rfl, .inl rfl, ?_⟩
        intro _
        exact ⟨rfl, hval⟩

-- ============================================================= the setup

/-- A register other than sp and lr is free to be written. -/
theorem Saved.setReg {s : State} (h : Saved s₀ s) {rt : BitVec 4} (x : Word)
    (h13 : (13 : BitVec 4) ≠ rt) (h14 : (14 : BitVec 4) ≠ rt) :
    Saved s₀ (s.setReg rt x).next :=
  ⟨h.mem, (s.setReg_ne x h13).trans h.sp, (s.setReg_ne x h14).trans h.lr⟩

/-- The push. -/
theorem push_step (he : Entry image base s₀)
    (hw : image[0]? = some pushWord) :
    ∃ s, step other s₀ = some s ∧ At image base 1 s ∧ Saved s₀ s := by
  have hstep := he.start.step_op hw push_op other
  have hlen : BitVec.ofNat 32 (4 * savedRegs.length) = 32#32 := rfl
  have hal : s₀.r 13 - 32#32 &&& 3#32 = 0#32 := he.sp_aligned
  simp only [A32.execOp, regList_saved, hlen, if_pos hal] at hstep
  refine ⟨_, hstep, ⟨?_, he.start.thumb, ?_⟩, ⟨rfl, ?_, ?_⟩⟩
  · show off s₀.pc 4 = site base 1
    rw [he.start.pc, A32.site_succ]
  · refine he.start.loaded.congr fun j hj => ?_
    exact A32.storeRegs_frame savedRegs _ fun i hi =>
      he.stack i hi j hj
  · rw [State.next_r, State.setReg_self, savedAt]
  · rw [State.next_r, State.setReg_ne _ _ (by decide)]

/-- The words between the loads and the loop body. -/
theorem inner_core {body : List Word} {i : Nat} (hi : i < 10) :
    (innerWords body)[i]? = some (coreWord i) := by
  unfold innerWords movWords
  rw [List.append_assoc, List.getElem?_append_left (by simpa using hi),
    List.getElem?_map, List.getElem?_range hi]
  rfl

theorem inner_neon {body : List Word} {i : Nat} (hi : i < 16) :
    (innerWords body)[10 + i]? = some (neonWord i) := by
  unfold innerWords movWords vdupWords
  rw [List.append_assoc, List.getElem?_append_right (by simp),
    List.length_map, List.length_range, Nat.add_sub_cancel_left,
    List.getElem?_append_left (by simpa using hi), List.getElem?_map,
    List.getElem?_range hi]
  rfl

/-- The words of the loop, the SUBS included. -/
theorem inner_body {body : List Word} (i : Nat) :
    (innerWords body)[26 + i]? = (body ++ [subsWord])[i]? := by
  unfold innerWords movWords vdupWords
  rw [List.getElem?_append_right (by simp)]
  simp

/-- The MOVs leave r0 zero and keep r10. -/
theorem core_steps {body : List Word} {zeroMem numLoop : Word} {s : State}
    (hg : GenImage image zeroMem numLoop body) (hat : At image base 3 s)
    (hs : Saved s₀ s) :
    ∃ s', Runs (step other) State.pc s
        ((List.range 10).map fun i => site base (3 + i)) s'
      ∧ At image base 13 s' ∧ Saved s₀ s' ∧ s'.r 10 = s.r 10
      ∧ s'.r 0 = 0#32 := by
  obtain ⟨s', hr, hat', hs', h10, h0⟩ := Runs.straight
    (fun i t => At image base (3 + i) t ∧ Saved s₀ t
      ∧ t.r 10 = s.r 10 ∧ (0 < i → t.r 0 = 0#32))
    (fun i => site base (3 + i)) 10
    (fun i t h => h.1.pc)
    (fun i hi t ⟨hat, hs, h10, h0⟩ => by
      have hw := hg.inner i _ (inner_core hi)
      -- only r0 to r9 are written
      have hne : ∀ x : BitVec 4, 10 ≤ x.toNat → x ≠ BitVec.ofNat 4 i := by
        rintro x hx rfl
        rw [BitVec.toNat_ofNat] at hx
        omega
      refine ⟨_, hat.step_op hw (core_op i hi) other, ?_, ?_, ?_, ?_⟩
      · exact hat.advance rfl rfl rfl
      · exact hs.setReg _ (hne 13 (by decide)) (hne 14 (by decide))
      · exact (State.setReg_ne _ _ (hne 10 (by decide))).trans h10
      · intro _
        cases i with
        | zero =>
            rw [State.next_r]
            exact State.setReg_self t 0#4 0#32
        | succ i =>
            refine (State.setReg_ne _ _ ?_).trans (h0 (by omega))
            intro h
            have hval := congrArg BitVec.toNat h
            rw [BitVec.toNat_ofNat] at hval
            have hz : (0 : BitVec 4).toNat = 0 := rfl
            omega)
    ⟨hat, hs, rfl, fun h => absurd h (by decide)⟩
  exact ⟨s', hr, hat', hs', h10, h0 (by decide)⟩

/-- The VDUPs clear all of d0 to d31. -/
theorem neon_steps {body : List Word} {zeroMem numLoop : Word} {s : State}
    (hg : GenImage image zeroMem numLoop body) (hat : At image base 13 s)
    (hs : Saved s₀ s) (h0 : s.r 0 = 0#32) :
    ∃ s', Runs (step other) State.pc s
        ((List.range 16).map fun i => site base (13 + i)) s'
      ∧ At image base 29 s' ∧ Saved s₀ s' ∧ s'.r = s.r
      ∧ ∀ v, s'.d v = 0#64 := by
  obtain ⟨s', hr, hat', hs', hr', hd⟩ := Runs.straight
    (fun i t => At image base (13 + i) t ∧ Saved s₀ t
      ∧ t.r = s.r ∧ ∀ v : BitVec 5, v.toNat < 2 * i → t.d v = 0#64)
    (fun i => site base (13 + i)) 16
    (fun i t h => h.1.pc)
    (fun i hi t ⟨hat, hs, hr, hd⟩ => by
      have hw := hg.inner (10 + i) _ (inner_neon hi)
      rw [← Nat.add_assoc] at hw
      have hzero : t.r 0 ++ t.r 0 = (0#64 : BitVec 64) := by
        rw [hr, h0]
        rfl
      have hexec : A32.execOp t (.vdup 1 (BitVec.ofNat 5 (2 * i)) 0)
          = some ((t.setD (BitVec.ofNat 5 (2 * i)) 0#64).setD
              (BitVec.ofNat 5 (2 * i) + 1) 0#64).next := by
        simp only [A32.execOp, hzero]
        rfl
      refine ⟨_, (hat.step_op hw (neon_op i hi) other).trans hexec,
        hat.advance rfl rfl rfl, ⟨hs.mem, hs.sp, hs.lr⟩, hr, ?_⟩
      intro v hv
      by_cases h1 : v = BitVec.ofNat 5 (2 * i) + 1
      · rw [h1]
        exact State.setD_self _ _ _
      · refine (State.setD_ne _ _ h1).trans ?_
        by_cases h2 : v = BitVec.ofNat 5 (2 * i)
        · rw [h2]
          exact State.setD_self _ _ _
        · refine (State.setD_ne _ _ h2).trans (hd v ?_)
          rcases Nat.lt_or_ge v.toNat (2 * i) with h | h
          · exact h
          · exfalso
            have hone : (1 : BitVec 5).toNat = 1 := rfl
            rcases Nat.eq_or_lt_of_le h with h | h
            · apply h2
              apply BitVec.eq_of_toNat_eq
              rw [BitVec.toNat_ofNat]
              omega
            · apply h1
              apply BitVec.eq_of_toNat_eq
              rw [BitVec.toNat_add, BitVec.toNat_ofNat]
              omega)
    ⟨hat, hs, rfl, fun v hv => absurd hv (by omega)⟩
  refine ⟨s', hr, hat', hs', hr', fun v => hd v ?_⟩
  have hv := v.isLt
  omega

/-- The setup runs to the loop head. -/
theorem setup_runs {body : List Word} {zeroMem numLoop : Word}
    (hg : GenImage image zeroMem numLoop body) (he : Entry image base s₀) :
    ∃ s, Runs (step other) State.pc s₀ ((List.range 29).map (site base)) s
      ∧ AtHead image base numLoop body.length s₀ s := by
  obtain ⟨s₁, hstep₁, hat₁, hs₁⟩ := push_step other he hg.push
  obtain ⟨w₁, hw₁, hmov₁⟩ := hg.counter
  obtain ⟨rt₁, x₁, hstep₂, hrt₁, hval₁⟩ := movldr_step other hat₁
    he.aligned hw₁ hmov₁ (by omega) (by decide) (by decide)
  have hsaved : ∀ {s : State} {rt : BitVec 4} (x : Word),
      rt = 10 ∨ rt = 11 → Saved s₀ s → Saved s₀ (s.setReg rt x).next := by
    rintro s rt x (rfl | rfl) h <;>
      exact h.setReg x (by decide) (by decide)
  have hat₂ : At image base 2 (s₁.setReg rt₁ x₁).next :=
    hat₁.advance rfl rfl rfl
  obtain ⟨w₂, hw₂, hmov₂⟩ := hg.pointer
  obtain ⟨rt₂, x₂, hstep₃, hrt₂, -⟩ := movldr_step other hat₂
    he.aligned hw₂ hmov₂ (by omega) (by decide) (by decide)
  have hrt₂ : rt₂ = 11 := by
    rcases hrt₂ with h | h
    · exact h
    · rw [h]
      rfl
  have hat₃ : At image base 3 ((s₁.setReg rt₁ x₁).next.setReg rt₂ x₂).next :=
    hat₂.advance rfl rfl rfl
  have hs₃ : Saved s₀ ((s₁.setReg rt₁ x₁).next.setReg rt₂ x₂).next :=
    hsaved x₂ (.inr hrt₂) (hsaved x₁ hrt₁ hs₁)
  obtain ⟨s₄, hr₄, hat₄, hs₄, h10₄, h0₄⟩ := core_steps other hg hat₃
    hs₃
  obtain ⟨s₅, hr₅, hat₅, hs₅, hregs₅, hd₅⟩ := neon_steps other hg
    hat₄ hs₄ h0₄
  refine ⟨s₅, ?_, hat₅, hs₅, hd₅, ?_⟩
  · have htrace : (List.range 29).map (site base)
        = [s₀.pc] ++ ([s₁.pc] ++ ([(s₁.setReg rt₁ x₁).next.pc]
          ++ (((List.range 10).map fun i => site base (3 + i))
            ++ (List.range 16).map fun i => site base (13 + i)))) := by
      rw [he.start.pc, hat₁.pc, hat₂.pc]
      rfl
    rw [htrace]
    exact (Runs.single hstep₁).append ((Runs.single hstep₂).append
      ((Runs.single hstep₃).append (hr₄.append hr₅)))
  · intro hreach
    obtain ⟨rfl, rfl⟩ := hval₁ hreach
    rw [hregs₅, h10₄, State.next_r, hrt₂, State.setReg_ne _ _ (by decide),
      State.next_r, State.setReg_self]

end UdeBench.Bench
