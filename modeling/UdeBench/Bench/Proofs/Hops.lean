/-
A generated function whose loop body is known: one pass over it executes
the words at the indices `js`, in that order, and ends behind its last
word.

The setup leaves more than the callbacks of an arbitrary body may count
on: r0 to r9 zero and r11 at `zero_mem` (`setup_still`). From there the
body and the loop's end alternate as often as the counter says
(`turns_run`), and the call returns (`call_measured`), having executed
the word with index `j` as often as `js` holds `j`, times `num_loop`.
-/
import UdeBench.Bench.Proofs.Abi
import UdeBench.Bench.Proofs.Quiet
import Mathlib.Algebra.BigOperators.Ring.List

namespace UdeBench.Bench

open A32 (Word State off site At step)
open Ag
open Trace

variable (other : Word → State → Option State)
variable {image : List Word} {base : Word} {s₀ : State}

-- ================================================================ the setup

/-- r0 to r9. -/
def low (x : BitVec 4) : Bool := x < 10

/-- The MOVs clear r0 to r9 and write nothing else. -/
theorem core_zero {body : List Word} {zeroMem numLoop : Word} {s : State}
    (hg : GenImage image zeroMem numLoop body) (hat : At image base 3 s) :
    ∃ s', Runs (step other) State.pc s
        ((List.range 10).map fun i => site base (3 + i)) s'
      ∧ At image base 13 s' ∧ s'.mem = s.mem
      ∧ (∀ x : BitVec 4, 10 ≤ x.toNat → s'.r x = s.r x)
      ∧ ∀ x : BitVec 4, x.toNat < 10 → s'.r x = 0#32 := by
  refine Runs.straight
    (fun i t => At image base (3 + i) t ∧ t.mem = s.mem
      ∧ (∀ x : BitVec 4, 10 ≤ x.toNat → t.r x = s.r x)
      ∧ ∀ x : BitVec 4, x.toNat < i → t.r x = 0#32)
    (fun i => site base (3 + i)) 10 (fun i t h => h.1.pc) ?_
    ⟨hat, rfl, fun _ _ => rfl, fun _ hx => absurd hx (Nat.not_lt_zero _)⟩
  intro i hi t ⟨hat, hmem, hhigh, hlow⟩
  have hw := hg.inner i _ (inner_core hi)
  have hval : (BitVec.ofNat 4 i).toNat = i := by
    rw [BitVec.toNat_ofNat]
    omega
  refine ⟨_, hat.step_op hw (core_op i hi) other, hat.advance rfl rfl rfl,
    hmem, ?_, ?_⟩
  · intro x hx
    refine (State.setReg_ne _ _ ?_).trans (hhigh x hx)
    rintro rfl
    omega
  · intro x hx
    by_cases hxi : x = BitVec.ofNat 4 i
    · rw [hxi]
      exact State.setReg_self _ _ _
    · refine (State.setReg_ne _ _ hxi).trans (hlow x ?_)
      refine Nat.lt_of_le_of_ne (Nat.le_of_lt_succ hx) fun heq => hxi ?_
      apply BitVec.eq_of_toNat_eq
      rw [hval, heq]

/-- What a call needs of `zero_mem`: it is zero, and not where the
registers are pushed. -/
structure ZeroMemReady (zeroMem : ZeroMem) (s₀ : State) : Prop where
  zeros : ∀ i, i < zeroMemSize → s₀.mem (off zeroMem.addr i) = 0#8
  stack : ∀ i, i < zeroMemSize → ∀ j, j < 32 →
    off zeroMem.addr i ≠ off (savedAt s₀) j

/-- The setup runs to the loop head, with all the zeros in place. -/
theorem setup_still {body : List Word} {zeroMem : ZeroMem} {numLoop : Word}
    (hg : GenImage image zeroMem.addr numLoop body)
    (hreach : LiteralsReach numLoop (33 + body.length))
    (he : Entry image base s₀) (hz : ZeroMemReady zeroMem s₀) :
    ∃ s, Runs (step other) State.pc s₀ ((List.range 29).map (site base)) s
      ∧ At image base 29 s ∧ s.r 10 = numLoop ∧ Saved s₀ s
      ∧ Still zeroMem True low s := by
  obtain ⟨s₁, hstep₁, hat₁, hs₁⟩ := push_step other he hg.push
  obtain ⟨w₁, hw₁, hmov₁⟩ := hg.counter
  obtain ⟨rt₁, x₁, hstep₂, -, hval₁⟩ := movldr_step other hat₁ he.aligned
    hw₁ hmov₁ (by omega) (by decide) (by decide)
  obtain ⟨rfl, rfl⟩ := hval₁ hreach.counter
  have hat₂ : At image base 2 (s₁.setReg 10 x₁).next :=
    hat₁.advance rfl rfl rfl
  obtain ⟨w₂, hw₂, hmov₂⟩ := hg.pointer
  obtain ⟨rt₂, x₂, hstep₃, -, hval₂⟩ := movldr_step other hat₂ he.aligned
    hw₂ hmov₂ (by omega) (by decide) (by decide)
  obtain ⟨rfl, rfl⟩ := hval₂ fun _ => hreach.pointer
  have hat₃ : At image base 3
      ((s₁.setReg 10 x₁).next.setReg 11 zeroMem.addr).next :=
    hat₂.advance rfl rfl rfl
  have hs₃ : Saved s₀
      ((s₁.setReg 10 x₁).next.setReg 11 zeroMem.addr).next :=
    (hs₁.setReg x₁ (by decide) (by decide)).setReg zeroMem.addr (by decide)
      (by decide)
  obtain ⟨s₄, hr₄, hat₄, hmem₄, hhigh₄, hlow₄⟩ := core_zero other hg hat₃
  have hs₄ : Saved s₀ s₄ := by
    refine ⟨hmem₄.trans hs₃.mem, ?_, ?_⟩
    · exact (hhigh₄ 13 (by decide)).trans hs₃.sp
    · exact (hhigh₄ 14 (by decide)).trans hs₃.lr
  obtain ⟨s₅, hr₅, hat₅, hs₅, hregs₅, hd₅⟩ := neon_steps other hg hat₄ hs₄
    (hlow₄ 0 (by decide))
  refine ⟨s₅, ?_, hat₅, ?_, hs₅, ?_, ?_, fun _ => hd₅, ?_⟩
  · have htrace : (List.range 29).map (site base)
        = [s₀.pc] ++ ([s₁.pc] ++ ([(s₁.setReg 10 x₁).next.pc]
          ++ (((List.range 10).map fun i => site base (3 + i))
            ++ (List.range 16).map fun i => site base (13 + i)))) := by
      rw [he.start.pc, hat₁.pc, hat₂.pc]
      rfl
    rw [htrace]
    exact (Runs.single hstep₁).append ((Runs.single hstep₂).append
      ((Runs.single hstep₃).append (hr₄.append hr₅)))
  · rw [hregs₅, hhigh₄ 10 (by decide), State.next_r,
      State.setReg_ne _ _ (by decide), State.next_r, State.setReg_self]
  · intro x hx
    rw [hregs₅]
    exact hlow₄ x (of_decide_eq_true hx)
  · rw [hregs₅, hhigh₄ 11 (by decide), State.next_r, State.setReg_self]
  · intro i hi
    rw [hs₅.mem, A32.storeRegs_frame savedRegs _ fun j hj =>
      hz.stack i hi j hj]
    exact hz.zeros i hi

-- ============================================================= the loop

/-- One pass over the body, from the loop head to the word behind its `m`
words, executes those at the indices `js`. -/
def BodyRuns (image : List Word) (base : Word) (m : Nat) (js : List Nat)
    (J : State → Prop) : Prop :=
  ∀ s, At image base 29 s → J s →
    ∃ s', Runs (step other) State.pc s (js.map fun j => site base (29 + j))
        s'
      ∧ At image base (29 + m) s' ∧ s'.r 10 = s.r 10 ∧ J s'

/-- The addresses of one turn of the loop. -/
def turnSites (base : Word) (m : Nat) (js : List Nat) : List Word :=
  (js.map fun j => site base (29 + j))
    ++ [site base (29 + m), site base (30 + m)]

section
variable {body : List Word} {zeroMem numLoop : Word} {J : State → Prop}
variable {js : List Nat}

/-- One turn, with `n + 1` of them to go: back to the loop head, or on to
the pop with the last. -/
theorem turn_runs (hg : GenImage image zeroMem numLoop body)
    (hm : body.length + 3 ≤ 2 ^ 23)
    (hbody : BodyRuns other image base body.length js J)
    (hJ : ∀ s s', SameBut10 s s' → J s → J s')
    {n : Nat} (hn : n < 2 ^ 32) {s : State} (hat : At image base 29 s)
    (h10 : s.r 10 = BitVec.ofNat 32 (n + 1)) (hj : J s) :
    ∃ s', Runs (step other) State.pc s (turnSites base body.length js) s'
      ∧ At image base (if n = 0 then 31 + body.length else 29) s'
      ∧ s'.r 10 = BitVec.ofNat 32 n ∧ J s' := by
  obtain ⟨s₁, hr₁, hat₁, h10₁, hj₁⟩ := hbody s hat hj
  obtain ⟨s₂, hstep₂, hat₂, h10₂, hz₂, hsame₂⟩ :=
    subs_step other hat₁ hg.subs hn (h10₁.trans h10)
  rw [Nat.add_right_comm] at hat₂
  obtain ⟨s₃, hstep₃, hat₃, hr₃, hsame₃⟩ := bne_step other hat₂ hg.bne hm
  refine ⟨s₃, ?_, ?_, ?_, hJ _ _ hsame₃ (hJ _ _ hsame₂ hj₁)⟩
  · have htwo : Runs (step other) State.pc s₁ _ s₃ :=
      (Runs.single hstep₂).append (.single hstep₃)
    rw [hat₁.pc, hat₂.pc] at htwo
    exact hr₁.append htwo
  · by_cases h0 : n = 0
    · rw [if_pos (hz₂.mpr h0)] at hat₃
      rw [if_pos h0]
      exact hat₃
    · rw [if_neg (fun h => h0 (hz₂.mp h))] at hat₃
      rw [if_neg h0]
      exact hat₃
  · rw [hr₃, h10₂]

/-- The loop: `n` turns, then the pop. -/
theorem turns_run (hg : GenImage image zeroMem numLoop body)
    (hm : body.length + 3 ≤ 2 ^ 23)
    (hbody : BodyRuns other image base body.length js J)
    (hJ : ∀ s s', SameBut10 s s' → J s → J s')
    {n : Nat} (hpos : 0 < n) (hn : n ≤ 2 ^ 32) {s : State}
    (hat : At image base 29 s) (h10 : s.r 10 = BitVec.ofNat 32 n)
    (hj : J s) :
    ∃ s', Runs (step other) State.pc s
        (List.replicate n (turnSites base body.length js)).flatten s'
      ∧ At image base (31 + body.length) s' ∧ J s' := by
  obtain ⟨s', hr, hn', hat', h10', hj'⟩ := Runs.countdown
    (fun n t => n ≤ 2 ^ 32
      ∧ At image base (if n = 0 then 31 + body.length else 29) t
      ∧ t.r 10 = BitVec.ofNat 32 n ∧ J t)
    (fun n t ⟨hn, hat, h10, hj⟩ => by
      rw [if_neg (Nat.succ_ne_zero n)] at hat
      obtain ⟨t', hruns, hat', h10', hj'⟩ :=
        turn_runs other hg hm hbody hJ (Nat.lt_of_succ_le hn) hat h10 hj
      exact ⟨t', hruns, Nat.le_of_succ_le hn, hat', h10', hj'⟩)
    n s ⟨hn, by rwa [if_neg (Nat.pos_iff_ne_zero.mp hpos)], h10, hj⟩
  exact ⟨s', hr, hat', hj'⟩

end

-- =============================================================== the counts

/-- The sites of a list of indices are met as often as the indices. -/
theorem count_map_site {base : Word} {m j : Nat} (hj : j < m)
    (hm : 4 * (29 + m) ≤ 2 ^ 32) :
    ∀ {js : List Nat}, (∀ i ∈ js, i < m) →
      (js.map fun i => site base (29 + i)).count (site base (29 + j))
        = js.count j := by
  intro js
  induction js with
  | nil => intro _; rfl
  | cons i js ih =>
      intro hjs
      have hi := hjs i List.mem_cons_self
      have hrest := ih fun i hi => hjs i (List.mem_cons_of_mem _ hi)
      rw [List.map_cons, List.count_cons, List.count_cons, hrest]
      congr 1
      by_cases hij : i = j
      · rw [hij]
        simp
      · have hne : site base (29 + i) ≠ site base (29 + j) := by
          intro heq
          have hidx := A32.site_inj (by omega) (by omega) heq
          omega
        simp [hij, hne]

/-- Over a whole call: as often as the indices, times the turns. -/
theorem count_turns {base : Word} {m n j : Nat} {js : List Nat} (hj : j < m)
    (hm : 4 * (31 + m) ≤ 2 ^ 32) (hjs : ∀ i ∈ js, i < m) :
    ((List.range 29).map (site base)
        ++ (List.replicate n (turnSites base m js)).flatten).count
      (site base (29 + j)) = n * js.count j := by
  have hsetup : site base (29 + j) ∉ (List.range 29).map (site base) := by
    have hout := not_mem_sites base 0 29 (29 + j) (.inr (by omega))
      (by omega) (by omega)
    simpa using hout
  have hend : site base (29 + j)
      ∉ [site base (29 + m), site base (30 + m)] := by
    intro hmem
    have hend : site base (29 + j) = site base (29 + m)
        ∨ site base (29 + j) = site base (30 + m) := by simpa using hmem
    rcases hend with heq | heq
    · have hidx := A32.site_inj (by omega) (by omega) heq
      omega
    · have hidx := A32.site_inj (by omega) (by omega) heq
      omega
  have hturn : (turnSites base m js).count (site base (29 + j))
      = js.count j := by
    rw [turnSites, List.count_append, List.count_eq_zero_of_not_mem hend,
      count_map_site hj (by omega) hjs, Nat.add_zero]
  rw [List.count_append, List.count_eq_zero_of_not_mem hsetup,
    List.count_flatten, List.map_replicate, List.sum_replicate, hturn,
    Nat.zero_add, Nat.nsmul_eq_mul]

/-- One index is counted once. -/
theorem sum_one (i : Nat) : ∀ m : Nat,
    ((List.range m).map fun j => if i == j then 1 else 0).sum
      = if i < m then 1 else 0 := by
  intro m
  induction m with
  | zero => rfl
  | succ m ih =>
      rw [List.range_succ, List.map_append, List.sum_append, ih,
        List.map_singleton, List.sum_singleton]
      by_cases him : i = m
      · simp [him]
      · have hiff : i < m + 1 ↔ i < m := by omega
        simp only [beq_iff_eq, him, hiff, if_false, Nat.add_zero]

/-- The counts of indices below `m` add up to all of them. -/
theorem sum_count {m : Nat} :
    ∀ {js : List Nat}, (∀ i ∈ js, i < m) →
      ((List.range m).map fun j => js.count j).sum = js.length := by
  intro js
  induction js with
  | nil => intro _; simp
  | cons i js ih =>
      intro hjs
      have hi := hjs i List.mem_cons_self
      have hrest := ih fun i hi => hjs i (List.mem_cons_of_mem _ hi)
      simp only [List.count_cons]
      rw [List.sum_map_add, hrest, sum_one i m, if_pos hi, List.length_cons]

/-- What lies behind the loop is not passed. -/
theorem not_mem_turns {base : Word} {m n i : Nat} {js : List Nat}
    (hi : 31 + m ≤ i) (hm : 4 * i < 2 ^ 32) (hjs : ∀ i ∈ js, i < m) :
    site base i ∉ (List.range 29).map (site base)
      ++ (List.replicate n (turnSites base m js)).flatten := by
  intro hmem
  rcases List.mem_append.mp hmem with h | h
  · have hout := not_mem_sites base 0 29 i (.inr (by omega)) hm (by omega)
    exact hout (by simpa using h)
  · obtain ⟨l, hl, hmem⟩ := List.mem_flatten.mp h
    rw [List.eq_of_mem_replicate hl] at hmem
    have hle : ∃ k, k < i ∧ site base i = site base k := by
      rcases List.mem_append.mp hmem with h | h
      · obtain ⟨j, hj, heq⟩ := List.mem_map.mp h
        have hlt := hjs j hj
        exact ⟨29 + j, by omega, heq.symm⟩
      · have hend : site base i = site base (29 + m)
            ∨ site base i = site base (30 + m) := by simpa using h
        rcases hend with heq | heq
        · exact ⟨29 + m, by omega, heq⟩
        · exact ⟨30 + m, by omega, heq⟩
    obtain ⟨k, hk, heq⟩ := hle
    have hidx := A32.site_inj hm (by omega) heq
    omega

-- ============================================================== the return

/-- A call that has returned: to lr, with the caller's sp, lr and r4 to
r11, the NEON registers zero in case of `N`, and nothing stored but the
saved registers. -/
structure Returned (N : Prop) (s₀ s : State) : Prop where
  pc : s.pc = (s₀.bxWritePc (s₀.r 14)).pc
  thumb : s.thumb = (s₀.bxWritePc (s₀.r 14)).thumb
  sp : s.r 13 = s₀.r 13
  lr : s.r 14 = s₀.r 14
  core : ∀ x, x ∈ savedRegs → s.r x = s₀.r x
  neon : N → ∀ v, s.d v = 0#64
  mem : s.mem = A32.storeRegs s₀.mem s₀.r (savedAt s₀) savedRegs

/-- A call runs to its end and executes the word with index `j` of the
loop's `m` words `n` times for each time `js` holds `j`: `n` times as
many words as `js` is long. -/
def Measured (N : Prop) (image : List Word) (base : Word) (m n : Nat)
    (js : List Nat) (s₀ : State) : Prop :=
  ∃ t s s', Runs (step other) State.pc s₀ t s
    ∧ At image base (32 + m) s ∧ site base (32 + m) ∉ t
    ∧ (∀ j, j < m → t.count (site base (29 + j)) = n * js.count j)
    ∧ ((List.range m).map fun j => t.count (site base (29 + j))).sum
      = n * js.length
    ∧ step other s = some s' ∧ Returned N s₀ s'

/-- Fewer cases in which the NEON registers are zero. -/
theorem Measured.mono {N N' : Prop} {m n : Nat} {js : List Nat}
    (h : Measured other N image base m n js s₀) (hN : N' → N) :
    Measured other N' image base m n js s₀ := by
  obtain ⟨t, s, s', hruns, hat, hout, hcount, hsum, hstep, hret⟩ := h
  exact ⟨t, s, s', hruns, hat, hout, hcount, hsum, hstep, hret.pc,
    hret.thumb, hret.sp, hret.lr, hret.core, fun hN' => hret.neon (hN hN'),
    hret.mem⟩

/-- What the loop keeps. -/
def Kept (zeroMem : ZeroMem) (N : Prop) (Z : BitVec 4 → Bool)
    (s₀ s : State) : Prop :=
  Saved s₀ s ∧ Still zeroMem N Z s

/-- The loop's own end keeps it. -/
theorem Kept.sameBut10 {zeroMem : ZeroMem} {N : Prop} {Z : BitVec 4 → Bool}
    (hZ : ∀ x, Z x = true → low x = true) {s s' : State}
    (h : SameBut10 s s') (hk : Kept zeroMem N Z s₀ s) :
    Kept zeroMem N Z s₀ s' := by
  obtain ⟨hs, hstill⟩ := hk
  have h10 : ∀ x, Z x = true → x ≠ 10 := by
    rintro x hx rfl
    exact absurd (hZ 10 hx) (by decide)
  refine ⟨⟨h.mem.trans hs.mem, ?_, ?_⟩, ?_, ?_, ?_, ?_⟩
  · exact (h.r 13 (by decide)).trans hs.sp
  · exact (h.r 14 (by decide)).trans hs.lr
  · exact fun x hx => (h.r x (h10 x hx)).trans (hstill.regs x hx)
  · exact (h.r 11 (by decide)).trans hstill.pointer
  · rw [h.d]
    exact hstill.neon
  · rw [h.mem]
    exact hstill.array

/-- Fewer registers are easier to keep. -/
theorem Still.mono {zeroMem : ZeroMem} {N N' : Prop} {Z Z' : BitVec 4 → Bool}
    {s : State} (h : Still zeroMem N Z s) (hN : N' → N)
    (hZ : ∀ x, Z' x = true → Z x = true) : Still zeroMem N' Z' s :=
  ⟨fun x hx => h.regs x (hZ x hx), h.pointer, fun hN' => h.neon (hN hN'),
    h.array⟩

section
variable {body : List Word} {zeroMem : ZeroMem} {numLoop : Word}
variable {N : Prop} {Z : BitVec 4 → Bool} {js : List Nat}

/-- The pop and the BX return from what the loop leaves. -/
theorem returns (hg : GenImage image zeroMem.addr numLoop body)
    (he : Entry image base s₀) {s : State}
    (hat : At image base (31 + body.length) s)
    (hk : Kept zeroMem N Z s₀ s) :
    ∃ s₁ s₂, step other s = some s₁ ∧ At image base (32 + body.length) s₁
      ∧ step other s₁ = some s₂ ∧ Returned N s₀ s₂ := by
  obtain ⟨hs, hstill⟩ := hk
  have hf : Pushed s₀ s := ⟨fun _ _ => by rw [hs.mem], hs.sp, hs.lr⟩
  obtain ⟨s₁, hstep₁, hat₁, hsp, hlr, hcore, hd⟩ :=
    pop_step other he hat hg.pop hf
  rw [Nat.add_right_comm] at hat₁
  have hmem : s₁.mem = s.mem := by
    have hpop := hat.step_op hg.pop pop_op other
    rw [hstep₁] at hpop
    simp only [A32.execOp] at hpop
    split at hpop
    · cases hpop
      rfl
    · cases hpop
  have hbx : step other s₁ = some (s₁.bxWritePc (s₁.r 14)) :=
    hat₁.step_op hg.bx bx_op other
  refine ⟨s₁, _, hstep₁, hat₁, hbx, ?_⟩
  rw [hlr]
  unfold State.bxWritePc
  split
  · next hbit =>
    exact ⟨by rw [State.bxWritePc, if_pos hbit],
      by rw [State.bxWritePc, if_pos hbit], hsp, hlr, hcore,
      fun hN v => (congrFun hd v).trans (hstill.neon hN v), hmem.trans hs.mem⟩
  · next hbit =>
    exact ⟨by rw [State.bxWritePc, if_neg hbit],
      by rw [State.bxWritePc, if_neg hbit], hsp, hlr, hcore,
      fun hN v => (congrFun hd v).trans (hstill.neon hN v), hmem.trans hs.mem⟩

/-- A call, from its first word to its return. -/
theorem call_measured (hg : GenImage image zeroMem.addr numLoop body)
    (hreach : LiteralsReach numLoop (33 + body.length))
    (hpos : 0 < numLoop.toNat) (he : Entry image base s₀)
    (hz : ZeroMemReady zeroMem s₀) (hZ : ∀ x, Z x = true → low x = true)
    (hjs : ∀ j ∈ js, j < body.length)
    (hbody : BodyRuns other image base body.length js
      (Kept zeroMem N Z s₀)) :
    Measured other N image base body.length numLoop.toNat js s₀ := by
  have hle := hreach.le
  obtain ⟨s₁, hr₁, hat₁, h10, hs₁, hstill₁⟩ :=
    setup_still other hg hreach he hz
  obtain ⟨s₂, hr₂, hat₂, hk₂⟩ := turns_run other hg (by omega) hbody
    (fun _ _ => Kept.sameBut10 hZ) hpos (Nat.le_of_lt numLoop.isLt) hat₁
    (by rw [h10, BitVec.ofNat_toNat, BitVec.setWidth_eq])
    ⟨hs₁, hstill₁.mono (fun _ => trivial) hZ⟩
  obtain ⟨s₃, s₄, hstep₃, hat₃, hstep₄, hret⟩ :=
    returns other hg he hat₂ hk₂
  have hcount : ∀ j, j < body.length →
      ((List.range 29).map (site base)
          ++ (List.replicate numLoop.toNat
            (turnSites base body.length js)).flatten
          ++ [s₂.pc]).count (site base (29 + j))
        = numLoop.toNat * js.count j := by
    intro j hj
    have hpop : site base (29 + j) ∉ [s₂.pc] := by
      intro hmem
      have heq := List.mem_singleton.mp hmem
      rw [hat₂.pc] at heq
      have hidx := A32.site_inj (by omega) (by omega) heq
      omega
    rw [List.count_append, List.count_eq_zero_of_not_mem hpop, Nat.add_zero]
    exact count_turns hj (by omega) hjs
  refine ⟨_, s₃, s₄, (hr₁.append hr₂).append (.single hstep₃), hat₃, ?_,
    hcount, ?_, hstep₄, hret⟩
  · intro hmem
    rcases List.mem_append.mp hmem with h | h
    · exact not_mem_turns (by omega) (by omega) hjs h
    · have heq := List.mem_singleton.mp h
      rw [hat₂.pc] at heq
      have hidx := A32.site_inj (by omega) (by omega) heq
      omega
  · have hsum : ∀ j ∈ List.range body.length, _ := fun j hj =>
      hcount j (List.mem_range.mp hj)
    rw [List.map_congr_left hsum, List.sum_map_mul_left, sum_count hjs]

end

end UdeBench.Bench
