/-
The calling convention of the generated functions: sp and r4 to r11 come
back as they were, d8 to d15 come back zero.

`gen` saves the core registers and clears all sixteen Q registers, and
the callbacks are told apart from it by what they may write
(`WritesOnly`). Through the loop that leaves the saved slots, sp, lr and
the zeros alone (`Frame`), so a call returns with what the caller needs
exactly when the caller's d8 to d15 were zero.

Literals out of reach change r10 and r11 only, and with them how often
the loop runs, which is no matter here.
-/
import UdeBench.Bench.Proofs.Count

namespace UdeBench.Bench

open A32 (Word State off site At Loaded step)
open Ag
open Trace

variable (other : Word → State → Option State)
variable {image : List Word} {base : Word} {s₀ : State}

-- ========================================================= the convention

/-- sp, r4 to r11 and d8 to d15, which a callee keeps. -/
structure CalleeSaved (s₀ s : State) : Prop where
  sp : s.r 13 = s₀.r 13
  core : ∀ x : BitVec 4, 4 ≤ x.toNat → x.toNat ≤ 11 → s.r x = s₀.r x
  neon : ∀ v : BitVec 5, 8 ≤ v.toNat → v.toNat ≤ 15 → s.d v = s₀.d v

/-- The call returns through the BX behind a loop of `m` words, to the
caller's lr and with the caller's registers. -/
def ReturnsSaved (image : List Word) (base : Word) (m : Nat) (s₀ : State) :
    Prop :=
  ∃ t s s', Runs (step other) State.pc s₀ t s ∧ At image base (32 + m) s
    ∧ site base (32 + m) ∉ t ∧ s.r 14 = s₀.r 14 ∧ step other s = some s'
    ∧ CalleeSaved s₀ s'

/-- What a benchmarked instruction may write: r0 to r9, `zero_mem`, and
NEON registers outside d8 to d15. -/
structure WritesOnly (zeroMem : ZeroMem) (s s' : State) : Prop where
  core : ∀ x : BitVec 4, 10 ≤ x.toNat → s'.r x = s.r x
  neon : ∀ v : BitVec 5, 8 ≤ v.toNat → v.toNat ≤ 15 → s'.d v = s.d v
  mem : ∀ a, (∀ i, i < zeroMemSize → a ≠ off zeroMem.addr i) →
    s'.mem a = s.mem a

/-- The `m` words of the loop body are straight line and write nothing
else, wherever the call reaches one. -/
def CallbackWrites (image : List Word) (base : Word) (m : Nat)
    (zeroMem : ZeroMem) (s₀ : State) : Prop :=
  ∀ s j, Reached other s₀ s → j < m → At image base (29 + j) s →
    ∃ s', step other s = some s' ∧ s'.pc = off s.pc 4
      ∧ s'.thumb = s.thumb ∧ WritesOnly zeroMem s s'

/-- `zero_mem` is neither code nor stack. -/
structure ZeroMemApart (image : List Word) (base : Word)
    (zeroMem : ZeroMem) (s₀ : State) : Prop where
  code : ∀ i, i < zeroMemSize → ∀ j, j < 4 * image.length →
    off base j ≠ off zeroMem.addr i
  stack : ∀ i, i < zeroMemSize → ∀ j, j < 32 →
    off (savedAt s₀) j ≠ off zeroMem.addr i

-- ======================================================== through the loop

/-- What the pop will find. -/
structure Pushed (s₀ s : State) : Prop where
  slots : ∀ i, i < 32 → s.mem (off (savedAt s₀) i)
    = A32.storeRegs s₀.mem s₀.r (savedAt s₀) savedRegs (off (savedAt s₀) i)
  sp : s.r 13 = savedAt s₀
  lr : s.r 14 = s₀.r 14

/-- And d8 to d15 zero. -/
structure Frame (s₀ s : State) : Prop extends Pushed s₀ s where
  cleared : ∀ v : BitVec 5, 8 ≤ v.toNat → v.toNat ≤ 15 → s.d v = 0#64

/-- The setup leaves it. -/
theorem AtHead.frame {numLoop : Word} {m : Nat} {s : State}
    (h : AtHead image base numLoop m s₀ s) : Frame s₀ s :=
  ⟨⟨fun _ _ => by rw [h.saved.mem], h.saved.sp, h.saved.lr⟩,
    fun v _ _ => h.cleared v⟩

/-- The loop's own end keeps it. -/
theorem Frame.sameBut10 {s s' : State} (h : SameBut10 s s')
    (hf : Frame s₀ s) : Frame s₀ s' := by
  refine ⟨⟨?_, ?_, ?_⟩, ?_⟩
  · rw [h.mem]
    exact hf.slots
  · rw [h.r 13 (by decide)]
    exact hf.sp
  · rw [h.r 14 (by decide)]
    exact hf.lr
  · rw [h.d]
    exact hf.cleared

/-- The callbacks keep it. -/
theorem CallbackWrites.steps {m : Nat} {zeroMem : ZeroMem}
    (h : CallbackWrites other image base m zeroMem s₀)
    (ha : ZeroMemApart image base zeroMem s₀) :
    CallbackSteps other image base m (Frame s₀) s₀ := by
  intro s j hr hj hat hf
  obtain ⟨s', hstep, hpc, hthumb, hw⟩ := h s j hr hj hat
  refine ⟨s', hstep, ⟨?_, ?_, ?_⟩, hw.core 10 (by decide),
    ⟨⟨?_, ?_, ?_⟩, ?_⟩⟩
  · rw [hpc, hat.pc, A32.site_succ]
  · rw [hthumb, hat.thumb]
  · exact hat.loaded.congr fun n hn =>
      hw.mem _ fun i hi => ha.code i hi n hn
  · intro i hi
    rw [hw.mem _ fun n hn => ha.stack n hn i hi]
    exact hf.slots i hi
  · rw [hw.core 13 (by decide)]
    exact hf.sp
  · rw [hw.core 14 (by decide)]
    exact hf.lr
  · intro v h8 h15
    rw [hw.neon v h8 h15]
    exact hf.cleared v h8 h15

-- ============================================================= the return

/-- The pop restores the core registers. -/
theorem pop_step {i : Nat} {s : State} (he : Entry image base s₀)
    (hat : At image base i s) (hw : image[i]? = some popWord)
    (hf : Pushed s₀ s) :
    ∃ s', step other s = some s' ∧ At image base (i + 1) s'
      ∧ s'.r 13 = s₀.r 13 ∧ s'.r 14 = s₀.r 14
      ∧ (∀ x, x ∈ savedRegs → s'.r x = s₀.r x) ∧ s'.d = s.d := by
  have hstep := hat.step_op hw pop_op other
  have hal : s.r 13 &&& 3#32 = 0#32 := by
    rw [hf.sp]
    exact he.sp_aligned
  simp only [A32.execOp, regList_saved, if_pos hal] at hstep
  refine ⟨_, hstep, hat.advance rfl rfl rfl, ?_, ?_, ?_, rfl⟩
  · rw [State.next_r, State.setReg_self, hf.sp, savedAt, off]
    exact BitVec.sub_add_cancel _ _
  · rw [State.next_r, State.setReg_ne _ _ (by decide)]
    show A32.loadRegs s.mem s.r (s.r 13) savedRegs 14 = s₀.r 14
    rw [A32.loadRegs_of_not_mem savedRegs _ (by decide)]
    exact hf.lr
  · intro x hx
    have hne : x ≠ 13 := by
      rintro rfl
      exact absurd hx (by decide)
    rw [State.next_r, State.setReg_ne _ _ hne]
    show A32.loadRegs s.mem s.r (s.r 13) savedRegs x = s₀.r x
    rw [hf.sp]
    refine A32.loadRegs_storeRegs (m := s₀.mem) ?_ ?_ ?_ hx
    · decide
    · decide
    · exact hf.slots

/-- Every register from r4 to r11 is saved. -/
theorem mem_savedRegs : ∀ x : BitVec 4, 4 ≤ x.toNat → x.toNat ≤ 11 →
    x ∈ savedRegs := by
  decide

section
variable {body : List Word} {zeroMem : ZeroMem} {numLoop : Word}

/-- A call arrives at the BX, for the first time, with sp, lr and r4 to
r11 as on entry and d8 to d15 zero. -/
theorem call_returns (hg : GenImage image zeroMem.addr numLoop body)
    (hm : body.length + 3 ≤ 2 ^ 23) (he : Entry image base s₀)
    (ha : ZeroMemApart image base zeroMem s₀)
    (hcall : CallbackWrites other image base body.length zeroMem s₀) :
    ∃ t s, Runs (step other) State.pc s₀ t s
      ∧ At image base (32 + body.length) s
      ∧ site base (32 + body.length) ∉ t
      ∧ s.r 13 = s₀.r 13 ∧ s.r 14 = s₀.r 14
      ∧ (∀ x, x ∈ savedRegs → s.r x = s₀.r x)
      ∧ ∀ v : BitVec 5, 8 ≤ v.toNat → v.toNat ≤ 15 → s.d v = 0#64 := by
  obtain ⟨s₁, hr₁, hhead⟩ := setup_runs other hg he
  -- a counter at zero makes the loop run 2^32 times
  obtain ⟨n, hpos, hn, hcount⟩ : ∃ n, 0 < n ∧ n ≤ 2 ^ 32
      ∧ s₁.r 10 = BitVec.ofNat 32 n := by
    by_cases h0 : s₁.r 10 = 0#32
    · exact ⟨2 ^ 32, by decide, Nat.le_refl _, h0⟩
    · refine ⟨(s₁.r 10).toNat, ?_, Nat.le_of_lt (s₁.r 10).isLt, ?_⟩
      · exact Nat.pos_of_ne_zero fun h => h0 (BitVec.eq_of_toNat_eq h)
      · rw [BitVec.ofNat_toNat, BitVec.setWidth_eq]
  obtain ⟨s₂, hr₂, hat₂, hf₂⟩ := loop_runs other hg hm (hcall.steps other ha)
    (fun _ _ => Frame.sameBut10) hpos hn hhead.here hcount ⟨_, hr₁⟩
    hhead.frame
  obtain ⟨s₃, hstep₃, hat₃, hsp, hlr, hcore, hd⟩ :=
    pop_step other he hat₂ hg.pop hf₂.toPushed
  rw [Nat.add_right_comm] at hat₃
  refine ⟨_, s₃, (hr₁.append hr₂).append (.single hstep₃), hat₃, ?_, hsp,
    hlr, hcore, ?_⟩
  · intro hmem
    rcases List.mem_append.mp hmem with h | h
    · exact not_mem_callSites (by omega) (by omega) h
    · have heq := List.mem_singleton.mp h
      rw [hat₂.pc] at heq
      have hidx := A32.site_inj (by omega) (by omega) heq
      omega
  · rw [hd]
    exact hf₂.cleared

/-- A call returns with the caller's registers exactly when d8 to d15
were zero. -/
theorem returnsSaved_iff (hg : GenImage image zeroMem.addr numLoop body)
    (hm : body.length + 3 ≤ 2 ^ 23) (he : Entry image base s₀)
    (ha : ZeroMemApart image base zeroMem s₀)
    (hcall : CallbackWrites other image base body.length zeroMem s₀) :
    ReturnsSaved other image base body.length s₀
      ↔ ∀ v : BitVec 5, 8 ≤ v.toNat → v.toNat ≤ 15 → s₀.d v = 0#64 := by
  obtain ⟨t, s, hr, hat, hfirst, hsp, hlr, hcore, hd⟩ :=
    call_returns other hg hm he ha hcall
  have hbx : step other s = some (s.bxWritePc (s.r 14)) :=
    hat.step_op hg.bx bx_op other
  have hkeep : ∀ a, (s.bxWritePc a).r = s.r ∧ (s.bxWritePc a).d = s.d := by
    intro a
    unfold State.bxWritePc
    split <;> exact ⟨rfl, rfl⟩
  obtain ⟨hr14, hd14⟩ := hkeep (s.r 14)
  constructor
  · rintro ⟨t', u, u', hr', hat', hfirst', -, hstep, hsaved⟩ v h8 h15
    obtain ⟨-, rfl⟩ := Runs.first_unique hr hr' hat.pc hat'.pc hfirst hfirst'
    rw [hbx] at hstep
    cases hstep
    rw [← hsaved.neon v h8 h15, hd14, hd v h8 h15]
  · intro hzero
    refine ⟨t, s, _, hr, hat, hfirst, hlr, hbx, ?_, ?_, ?_⟩
    · rw [hr14, hsp]
    · intro x h4 h11
      rw [hr14, hcore x (mem_savedRegs x h4 h11)]
    · intro v h8 h15
      rw [hd14, hd v h8 h15, hzero v h8 h15]

end

-- ============================================================= the result

/-- The generated functions keep the calling convention exactly when the
caller's d8 to d15 are zero: the VDUPs of the setup clear them and
nothing brings them back. -/
theorem calling_convention_iff (ps : PageSize) {k : Nat}
    (f : StraightLine k) (zeroMem : ZeroMem) (numLoop : Word)
    (numInsn : Nat) (o : LtOp)
    (hmem : (genListing zeroMem.addr numLoop
      (loopWords f zeroMem.addr numLoop numInsn o)).Placed)
    (hbranch : (callArgs numInsn o).length * k + 3 ≤ 2 ^ 23) :
    ∃ code, ltCode ps f.run zeroMem.addr numLoop numInsn o = some code
      ∧ ∀ other base s₀ m, m = (callArgs numInsn o).length * k →
          Entry code.image base s₀ →
          ZeroMemApart code.image base zeroMem s₀ →
          CallbackWrites other code.image base m zeroMem s₀ →
          (ReturnsSaved other code.image base m s₀
            ↔ ∀ v : BitVec 5, 8 ≤ v.toNat → v.toNat ≤ 15 →
                s₀.d v = 0#64) := by
  have hlen := (sim_gen f zeroMem.addr numLoop numInsn o).2
  obtain ⟨code, hcode, himage⟩ :=
    ltCode_image ps f zeroMem.addr numLoop numInsn o hmem
  have hg := genImage zeroMem.addr numLoop
    (loopWords f zeroMem.addr numLoop numInsn o)
  rw [← himage] at hg
  refine ⟨code, hcode, ?_⟩
  intro other base s₀ m hm he ha hcall
  rw [← hlen] at hm hbranch
  subst hm
  exact returnsSaved_iff other hg hbranch he ha hcall

/-- `zero_mem` at 0x20000. -/
def subZeroMem : ZeroMem where
  addr := 0x20000
  past_first_page := by decide
  fits := by decide

/-- Neither the code nor the stack of `callerState` is there. -/
theorem subZeroMem_apart {image : List Word} (x : BitVec 64)
    (hlen : image.length ≤ 2 ^ 14) :
    ZeroMemApart image 0x10000 subZeroMem (callerState image x) := by
  have h1 : (0x10000 : Word).toNat = 65536 := rfl
  have h2 : subZeroMem.addr.toNat = 131072 := rfl
  constructor
  · intro i hi j hj heq
    have hval := congrArg BitVec.toNat heq
    simp only [off, BitVec.toNat_add, BitVec.toNat_ofNat, zeroMemSize]
      at hval hi
    omega
  · intro i hi j hj heq
    have hval := congrArg BitVec.toNat heq
    simp only [savedAt_callerState, off, BitVec.toNat_add,
      BitVec.toNat_ofNat, zeroMemSize] at hval hi
    omega

/-- The function of eight subtractions run three times, called with `x`
in the D registers: everything the convention asks of its caller and its
callbacks holds. -/
theorem sub_call (x : BitVec 64) :
    (genListing 0x20000 3 (loopWords subCallback 0x20000 3 8 .latency)).Placed
      ∧ ∃ code body, ltCode .default subCallback.run 0x20000 3 8 .latency
          = some code
        ∧ body.length = 8 ∧ GenImage code.image 0x20000 3 body
        ∧ Entry code.image 0x10000 (callerState code.image x)
        ∧ ZeroMemApart code.image 0x10000 subZeroMem
            (callerState code.image x)
        ∧ CallbackWrites (fun _ _ => none) code.image 0x10000 8 subZeroMem
            (callerState code.image x) := by
  have hlen : (loopWords subCallback 0x20000 3 8 .latency).length = 8 :=
    (sim_gen subCallback 0x20000 3 8 .latency).2
  have hsub : ∀ w, w ∈ loopWords subCallback 0x20000 3 8 .latency →
      w = dataProcessImmWord .condAl .sub 0 0 0 1 := by
    intro w hw
    unfold loopWords at hw
    split at hw
    · cases hw
    · exact subCallback_words hw
  have hmem : (genListing 0x20000 3
      (loopWords subCallback 0x20000 3 8 .latency)).Placed := by
    apply Listing.placed_of_fits
    rw [length_genListing, genListing_data, hlen]
    have hdata := (loadsListing_lengths 0x20000 3).2
    simp only [instSize]
    omega
  obtain ⟨code, hcode, himage⟩ :=
    ltCode_image .default subCallback 0x20000 3 8 .latency hmem
  have hg := genImage 0x20000 3 (loopWords subCallback 0x20000 3 8 .latency)
  rw [← himage] at hg
  have hle := hg.length_le
  refine ⟨hmem, code, _, hcode, hlen, hg, entry_callerState x (by omega),
    subZeroMem_apart x (by omega), ?_⟩
  intro s j _ hj hat
  rw [← hlen] at hj
  have hw := (loopLayout hg (by omega)).body j hj
  have hget := List.getElem?_eq_getElem hj
  rw [hget, hsub _ (List.mem_of_getElem? hget)] at hw
  refine ⟨_, hat.step_op hw subCallback_op _, rfl, rfl, ?_, fun _ _ _ => rfl,
    fun _ _ => rfl⟩
  intro r hr
  rw [State.next_r, State.setReg_ne]
  rintro rfl
  exact absurd hr (by decide)

/-- Called with d8 at one, it does not bring it back. -/
theorem not_returnsSaved_sub :
    ∃ code, ltCode .default subCallback.run 0x20000 3 8 .latency = some code
      ∧ Entry code.image 0x10000 (callerState code.image 1)
      ∧ ZeroMemApart code.image 0x10000 subZeroMem (callerState code.image 1)
      ∧ CallbackWrites (fun _ _ => none) code.image 0x10000 8 subZeroMem
          (callerState code.image 1)
      ∧ ¬ ReturnsSaved (fun _ _ => none) code.image 0x10000 8
          (callerState code.image 1) := by
  obtain ⟨-, code, body, hcode, hlen, hg, he, ha, hcall⟩ := sub_call 1
  refine ⟨code, hcode, he, ha, hcall, ?_⟩
  rw [← hlen] at hcall ⊢
  have hiff := returnsSaved_iff (fun _ _ => none)
    (show GenImage code.image subZeroMem.addr 3 body from hg) (by omega)
    he ha hcall
  rw [hiff]
  intro hzero
  have h8 : (1 : BitVec 64) = 0#64 := hzero 8 (by decide) (by decide)
  exact absurd h8 (by decide)

/-- Called with them at zero, it does. -/
theorem calling_convention_sub :
    ∃ code, ltCode .default subCallback.run 0x20000 3 8 .latency = some code
      ∧ ReturnsSaved (fun _ _ => none) code.image 0x10000 8
          (callerState code.image 0) := by
  obtain ⟨hmem, code, body, hcode, hlen, hg, he, ha, hcall⟩ := sub_call 0
  obtain ⟨code', hcode', hiff⟩ := calling_convention_iff .default subCallback
    subZeroMem 3 8 .latency hmem (by decide)
  have hsame : code' = code := Option.some.inj (hcode'.symm.trans hcode)
  subst hsame
  exact ⟨code', hcode, (hiff _ _ _ 8 rfl he ha hcall).mpr fun _ _ _ => rfl⟩

end UdeBench.Bench
