/-
The loop of a generated function, executed: every word of the body as
often as the counter says, then the pop.

One iteration is the body left one instruction at a time, the SUBS and
the BNE (`iteration`); `Runs.countdown` makes the loop of it. What the
benchmarked instructions do is a hypothesis on the states they are
reached in (`CallbackSteps`): they go on to the next word, keep the code
and r10, and whatever else `J` a result needs kept through the loop.
-/
import UdeBench.Bench.Proofs.Prologue

namespace UdeBench.Bench

open A32 (Word State off site At Loaded step)
open Ag
open Bits
open Trace

variable (other : Word → State → Option State)
variable {image : List Word} {base : Word} {s₀ : State}

-- ======================================================== the loop's words

/-- The states a call goes through. -/
def Reached (s₀ s : State) : Prop := ∃ t, Runs (step other) State.pc s₀ t s

/-- The words of the loop body, `m` from the loop head on, are straight
line: wherever the call reaches one, it steps to the next word, the code,
r10 and `J` kept. -/
def CallbackSteps (image : List Word) (base : Word) (m : Nat)
    (J : State → Prop) (s₀ : State) : Prop :=
  ∀ s j, Reached other s₀ s → j < m → At image base (29 + j) s → J s →
    ∃ s', step other s = some s' ∧ At image base (29 + j + 1) s'
      ∧ s'.r 10 = s.r 10 ∧ J s'

/-- What the BNE's offset field holds. -/
def bneOffset (m : Nat) : BitVec 24 :=
  (BitVec.ofNat 32 29 - BitVec.ofNat 32 (30 + m) - 2#32).setWidth 24

/-- The BNE, without a link. -/
theorem bne_decode (m : Nat) :
    A32.decodeBranch (bneWord m) = some { cond := AgCond.condNe.code,
                                          link := 0,
                                          imm24 := bneOffset m } := by
  have hmask : (BitVec.ofNat 32 29 - BitVec.ofNat 32 (30 + m) - 2#32)
      &&& 0x00ffffff#32 = (bneOffset m).setWidth 32 :=
    and_mask_eq_setWidth _ (show 24 ≤ 32 by decide)
  have hdec := decode_branchOffset .condNe 0#1 (bneOffset m)
  rw [← hmask] at hdec
  exact hdec

/-- The distance to the loop head, where the field can hold it. -/
theorem bneOffset_toInt {m : Nat} (hm : m + 3 ≤ 2 ^ 23) :
    (bneOffset m).toInt = -((m : Int) + 3) := by
  have hval : (bneOffset m).toNat = 2 ^ 24 - (m + 3) := by
    unfold bneOffset
    rw [BitVec.toNat_setWidth, BitVec.toNat_sub, BitVec.toNat_sub,
      BitVec.toNat_ofNat, BitVec.toNat_ofNat, BitVec.toNat_ofNat]
    omega
  rw [BitVec.toInt_eq_toNat_cond, hval]
  omega

/-- A body the BNE reaches across: it branches to the loop head. -/
theorem bne_target {m : Nat} (hm : m + 3 ≤ 2 ^ 23) :
    off (site base (30 + m)) 8 + ((bneOffset m).signExtend 32 <<< 2)
      = site base 29 := by
  apply BitVec.eq_of_toNat_eq
  unfold BitVec.signExtend site off
  rw [bneOffset_toInt hm, BitVec.toNat_add, BitVec.toNat_add,
    BitVec.toNat_add, BitVec.toNat_add, BitVec.toNat_shiftLeft,
    BitVec.toNat_ofInt, BitVec.toNat_ofNat, BitVec.toNat_ofNat,
    BitVec.toNat_ofNat, Nat.shiftLeft_eq]
  omega

-- ============================================================= the loop

/-- The addresses of one iteration. -/
def iterationSites (base : Word) (m : Nat) : List Word :=
  (List.range (m + 2)).map fun j => site base (29 + j)

section
variable {body : List Word} {zeroMem numLoop : Word} {J : State → Prop}

/-- Running on from a reached state reaches. -/
theorem Reached.runs {s s' : State} {t : List Word} (h : Reached other s₀ s)
    (hr : Runs (step other) State.pc s t s') : Reached other s₀ s' := by
  obtain ⟨t₀, h₀⟩ := h
  exact ⟨t₀ ++ t, h₀.append hr⟩

/-- The body: from the loop head to the SUBS. -/
theorem body_runs {m : Nat} (hcall : CallbackSteps other image base m J s₀)
    {s : State} (hat : At image base 29 s) (hr : Reached other s₀ s)
    (hj : J s) :
    ∃ s', Runs (step other) State.pc s
        ((List.range m).map fun j => site base (29 + j)) s'
      ∧ At image base (29 + m) s' ∧ s'.r 10 = s.r 10 ∧ J s'
      ∧ Reached other s₀ s' := by
  refine Runs.straight
    (fun j t => At image base (29 + j) t ∧ t.r 10 = s.r 10 ∧ J t
      ∧ Reached other s₀ t)
    (fun j => site base (29 + j)) m (fun j t h => h.1.pc)
    (fun j hlt t ⟨hat, h10, hj, hr⟩ => ?_) ⟨hat, rfl, hj, hr⟩
  obtain ⟨t', hstep, hat', h10', hj'⟩ := hcall t j hr hlt hat hj
  exact ⟨t', hstep, hat', h10'.trans h10, hj',
    hr.runs other (.single hstep)⟩

/-- What the words of the loop's end leave alone. -/
structure SameBut10 (s s' : State) : Prop where
  mem : s'.mem = s.mem
  d : s'.d = s.d
  r : ∀ x, x ≠ 10 → s'.r x = s.r x

/-- The SUBS follows the body. -/
theorem GenImage.subs (hg : GenImage image zeroMem numLoop body) :
    image[29 + body.length]? = some subsWord := by
  have hinner : (innerWords body)[26 + body.length]? = some subsWord := by
    rw [inner_body]
    simp
  have hw := hg.inner _ _ hinner
  rwa [← Nat.add_assoc] at hw

/-- The SUBS takes one off the count, and sets Z when it ends. -/
theorem subs_step {i n : Nat} {s : State} (hat : At image base i s)
    (hw : image[i]? = some subsWord) (hn : n < 2 ^ 32)
    (h10 : s.r 10 = BitVec.ofNat 32 (n + 1)) :
    ∃ s', step other s = some s' ∧ At image base (i + 1) s'
      ∧ s'.r 10 = BitVec.ofNat 32 n ∧ (s'.z = true ↔ n = 0)
      ∧ SameBut10 s s' := by
  have hcount : s.r 10 - 1#32 = BitVec.ofNat 32 n := by
    rw [h10, ← ofNat_succ]
    exact BitVec.add_sub_cancel _ _
  refine ⟨_, hat.step_op hw subs_op other, hat.advance rfl rfl rfl, ?_, ?_,
    rfl, rfl, fun x hx => s.setReg_ne _ hx⟩
  · exact (s.setReg_self 10 _).trans hcount
  · show (s.r 10 - 1#32 == 0#32) = true ↔ n = 0
    rw [hcount, beq_iff_eq]
    constructor
    · intro h
      have hval := congrArg BitVec.toNat h
      rw [BitVec.toNat_ofNat, Nat.mod_eq_of_lt hn] at hval
      exact hval
    · rintro rfl
      rfl

/-- The BNE goes back to the loop head until Z is set. -/
theorem bne_step {m : Nat} {s : State} (hat : At image base (30 + m) s)
    (hw : image[30 + m]? = some (bneWord m)) (hm : m + 3 ≤ 2 ^ 23) :
    ∃ s', step other s = some s'
      ∧ At image base (if s.z then 31 + m else 29) s'
      ∧ s'.r = s.r ∧ SameBut10 s s' := by
  have hstep := hat.step_eq hw other
  rw [A32.exec, A32.decodeOp_branch (bne_decode m)] at hstep
  cases hz : s.z with
  | true =>
      have hcond : A32.condPassed AgCond.condNe.code s = false := by
        show (!s.z) = false
        rw [hz]
        rfl
      simp only [hcond, Bool.false_eq_true, if_false] at hstep
      refine ⟨_, hstep, ?_, rfl, rfl, rfl, fun x _ => rfl⟩
      rw [if_pos rfl, show 31 + m = 30 + m + 1 by omega]
      exact hat.advance rfl rfl rfl
  | false =>
      have hcond : A32.condPassed AgCond.condNe.code s = true := by
        show (!s.z) = true
        rw [hz]
        rfl
      simp only [hcond, if_true, A32.execOp] at hstep
      refine ⟨_, hstep, ⟨?_, hat.thumb, hat.loaded⟩, rfl, rfl, rfl,
        fun x _ => rfl⟩
      show off s.pc 8 + _ = _
      rw [hat.pc, bne_target hm]
      rfl

/-- One iteration, with `n + 1` of them to go: back to the loop head, or
on to the pop with the last. -/
theorem iteration (hg : GenImage image zeroMem numLoop body)
    (hm : body.length + 3 ≤ 2 ^ 23)
    (hcall : CallbackSteps other image base body.length J s₀)
    (hJ : ∀ s s', SameBut10 s s' → J s → J s')
    {n : Nat} (hn : n < 2 ^ 32) {s : State} (hat : At image base 29 s)
    (h10 : s.r 10 = BitVec.ofNat 32 (n + 1)) (hr : Reached other s₀ s)
    (hj : J s) :
    ∃ s', Runs (step other) State.pc s (iterationSites base body.length) s'
      ∧ At image base (if n = 0 then 31 + body.length else 29) s'
      ∧ s'.r 10 = BitVec.ofNat 32 n ∧ J s' ∧ Reached other s₀ s' := by
  obtain ⟨s₁, hr₁, hat₁, h10₁, hj₁, -⟩ := body_runs other hcall hat hr hj
  obtain ⟨s₂, hstep₂, hat₂, h10₂, hz₂, hsame₂⟩ :=
    subs_step other hat₁ hg.subs hn (h10₁.trans h10)
  rw [Nat.add_right_comm] at hat₂
  obtain ⟨s₃, hstep₃, hat₃, hr₃, hsame₃⟩ := bne_step other hat₂ hg.bne hm
  have hruns : Runs (step other) State.pc s
      (iterationSites base body.length) s₃ := by
    have htrace : iterationSites base body.length
        = ((List.range body.length).map fun j => site base (29 + j))
          ++ ([s₁.pc] ++ [s₂.pc]) := by
      unfold iterationSites
      rw [List.range_succ, List.range_succ, hat₁.pc, hat₂.pc,
        show 30 + body.length = 29 + (body.length + 1) by omega]
      simp only [List.map_append, List.map_singleton, List.append_assoc]
    rw [htrace]
    exact hr₁.append ((Runs.single hstep₂).append (.single hstep₃))
  refine ⟨s₃, hruns, ?_, ?_, hJ _ _ hsame₃ (hJ _ _ hsame₂ hj₁),
    hr.runs other hruns⟩
  · by_cases h0 : n = 0
    · rw [if_pos (hz₂.mpr h0)] at hat₃
      rw [if_pos h0]
      exact hat₃
    · rw [if_neg (fun h => h0 (hz₂.mp h))] at hat₃
      rw [if_neg h0]
      exact hat₃
  · rw [hr₃, h10₂]

/-- The loop: from the loop head with the count at `n` to the pop, the
iteration `n` times over. -/
theorem loop_runs (hg : GenImage image zeroMem numLoop body)
    (hm : body.length + 3 ≤ 2 ^ 23)
    (hcall : CallbackSteps other image base body.length J s₀)
    (hJ : ∀ s s', SameBut10 s s' → J s → J s')
    {n : Nat} (hpos : 0 < n) (hn : n ≤ 2 ^ 32) {s : State}
    (hat : At image base 29 s) (h10 : s.r 10 = BitVec.ofNat 32 n)
    (hr : Reached other s₀ s) (hj : J s) :
    ∃ s', Runs (step other) State.pc s
        (List.replicate n (iterationSites base body.length)).flatten s'
      ∧ At image base (31 + body.length) s' ∧ J s' := by
  obtain ⟨s', hr', h⟩ := Runs.countdown
    (fun n t => n ≤ 2 ^ 32
      ∧ At image base (if n = 0 then 31 + body.length else 29) t
      ∧ t.r 10 = BitVec.ofNat 32 n ∧ J t ∧ Reached other s₀ t)
    (fun n t ⟨hn, hat, h10, hj, hr⟩ => by
      rw [if_neg (Nat.succ_ne_zero n)] at hat
      obtain ⟨t', hruns, hat', h10', hj', hr'⟩ :=
        iteration other hg hm hcall hJ (Nat.lt_of_succ_le hn) hat h10 hr hj
      exact ⟨t', hruns, Nat.le_of_succ_le hn, hat', h10', hj', hr'⟩)
    n s ⟨hn, by rwa [if_neg (Nat.pos_iff_ne_zero.mp hpos)], h10, hj, hr⟩
  exact ⟨s', hr', h.2.1, h.2.2.2.1⟩

end

end UdeBench.Bench
