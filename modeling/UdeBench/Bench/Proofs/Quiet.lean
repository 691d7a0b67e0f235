/-
Instructions that keep zeros zero. The benchmarks compute on registers
that were cleared and on an array nobody writes, so what they load is
zero, what they store is zero, and memory stays as it was.

`quiet` looks at one instruction: which registers it may leave nonzero,
and whether it gets at memory through r11 and at an offset the array
holds. `quiet_step` is that this is enough: in a state with the zeros
(`Still`) the instruction does not fault, and the zeros, r10 to r15 and
all of memory are as before.

What NEON arithmetic makes of zeros is open, so no body both computes on
NEON registers and stores them: `neon` is set for a body that does not
compute. In one that does they stay zero if the units keep zeros
(`NeonZero`).
-/
import UdeBench.A32.Timed
import UdeBench.Bench.Gen

namespace UdeBench.Bench

open A32 (Word State Timed Units off load32 store32)
open Bits

-- ============================================================== the check

/-- An instruction that keeps the registers of `Z`, the NEON registers if
`neon` is set, and the array. -/
def quiet (neon : Bool) (Z : BitVec 4 → Bool) : Timed → Bool
  | .compute rd _ => rd < 10 && !Z rd
  | .addPc _ => false
  | .ldr rt rn _ rm _ => rt < 10 && rn == 11 && Z rm
  | .str _ rt rn offset =>
      Z rt && rn == 11 && decide (0 ≤ offset ∧ offset + 4 ≤ zeroMemSize)
  | .ldmia rn regs => rn == 11 && (A32.regList regs).all (· < 10)
  | .ldrex rt rn => rt < 10 && rn == 11
  | .strex rd rt rn => rd < 10 && !Z rd && Z rt && rn == 11
  | .vr3 .. => !neon
  | .vcvt .. => !neon
  | .lane _ _ _ _ _ rn => rn == 11 && neon

-- ============================================================= the states

/-- `zero_mem` is mapped. -/
def Mapped (zeroMem : ZeroMem) (u : Units) : Prop :=
  ∀ i, i < zeroMemSize → u.mapped (off zeroMem.addr i) = true

/-- The units compute zero from zeros. -/
structure KeepsZeros (u : Units) : Prop where
  vec : ∀ w, u.vec w 0 0 0 = 0
  cvt : ∀ w, u.cvt w 0 = 0

/-- Whether the NEON registers stay zero. -/
def NeonZero (u : Units) (neon : Bool) : Prop := neon = true ∨ KeepsZeros u

/-- The zeros: the registers of `Z`, the NEON registers in case of `N`, and
the array r11 points to. -/
structure Still (zeroMem : ZeroMem) (N : Prop) (Z : BitVec 4 → Bool)
    (s : State) : Prop where
  regs : ∀ x, Z x = true → s.r x = 0#32
  pointer : s.r 11 = zeroMem.addr
  neon : N → ∀ v, s.d v = 0#64
  array : ∀ i, i < zeroMemSize → s.mem (off zeroMem.addr i) = 0#8

/-- On to the next word, the zeros and r10 to r15 kept and memory as it
was. -/
structure Onward (zeroMem : ZeroMem) (N : Prop) (Z : BitVec 4 → Bool)
    (s s' : State) : Prop where
  pc : s'.pc = off s.pc 4
  thumb : s'.thumb = s.thumb
  mem : s'.mem = s.mem
  high : ∀ x : BitVec 4, 10 ≤ x.toNat → s'.r x = s.r x
  still : Still zeroMem N Z s'

section
variable {zeroMem : ZeroMem} {N : Prop} {Z : BitVec 4 → Bool}
variable {u : Units} {s : State} {neon : Bool}

-- ======================================================== zeros in memory

/-- Bytes of zeros from an address. -/
def ZerosAt (mem : Word → BitVec 8) (a : Word) (n : Nat) : Prop :=
  ∀ i, i < n → mem (off a i) = 0#8

/-- A part of the array is zeros. -/
theorem Still.zerosAt (h : Still zeroMem N Z s) {k n : Nat}
    (hn : k + n ≤ zeroMemSize) : ZerosAt s.mem (off zeroMem.addr k) n := by
  intro i hi
  rw [A32.off_off]
  exact h.array _ (by omega)

/-- And is mapped. -/
theorem Mapped.maps (h : Mapped zeroMem u) {k n : Nat}
    (hn : k + n ≤ zeroMemSize) :
    u.maps (off zeroMem.addr k) n = true := by
  unfold Units.maps
  rw [List.all_eq_true]
  intro i hi
  rw [A32.off_off]
  have hlt := List.mem_range.mp hi
  exact h _ (by omega)

/-- Zeros further on. -/
theorem ZerosAt.shift {mem : Word → BitVec 8} {a : Word} {k n : Nat}
    (h : ZerosAt mem a (k + n)) : ZerosAt mem (off a k) n := by
  intro i hi
  rw [A32.off_off]
  exact h _ (by omega)

/-- A word of zeros. -/
theorem ZerosAt.load32 {mem : Word → BitVec 8} {a : Word} {n : Nat}
    (h : ZerosAt mem a (4 + n)) : load32 mem a = 0#32 := by
  unfold A32.load32
  rw [h 0 (by omega), h 1 (by omega), h 2 (by omega), h 3 (by omega)]
  rfl

/-- Zero stored over zeros. -/
theorem ZerosAt.store32 {mem : Word → BitVec 8} {a : Word} {n : Nat}
    (h : ZerosAt mem a (4 + n)) : store32 mem a 0#32 = mem := by
  have hbyte : ∀ lo, bits (0#32) lo 8 = 0#8 := by
    intro lo
    rw [bits_ofNat]
    simp
  funext b
  unfold A32.store32
  simp only [hbyte]
  split
  · next hb => rw [hb, h 0 (by omega)]
  · split
    · next hb => rw [hb, h 1 (by omega)]
    · split
      · next hb => rw [hb, h 2 (by omega)]
      · split
        · next hb => rw [hb, h 3 (by omega)]
        · rfl

/-- Registers loaded from zeros are zero. -/
theorem ZerosAt.loadRegs {mem : Word → BitVec 8} {r : BitVec 4 → Word}
    {x : BitVec 4} :
    ∀ {xs : List (BitVec 4)} {a : Word}, ZerosAt mem a (4 * xs.length) →
      x ∈ xs → A32.loadRegs mem r a xs x = 0#32 := by
  intro xs
  induction xs with
  | nil =>
      intro a _ hx
      cases hx
  | cons y xs ih =>
      intro a h hx
      rw [List.length_cons, Nat.mul_succ, Nat.add_comm] at h
      rw [A32.loadRegs]
      by_cases hxy : x = y
      · rw [hxy, Function.update_self, h.load32]
      · rw [Function.update_of_ne hxy]
        refine ih h.shift ?_
        rcases List.mem_cons.mp hx with heq | hmem
        · exact absurd heq hxy
        · exact hmem

/-- A zero lane in a zero register. -/
theorem setLane_zero : ∀ index : BitVec 1,
    A32.setLane 0#64 index 0#32 = 0#64 := by
  decide

theorem getLane_zero : ∀ index : BitVec 1,
    A32.getLane 0#64 index = 0#32 := by
  decide

/-- Lanes loaded from zeros leave zero registers zero. -/
theorem ZerosAt.loadLanes {mem : Word → BitVec 8} {index : BitVec 1}
    {vs : List (BitVec 5)} :
    ∀ {d : BitVec 5 → BitVec 64} {a : Word},
      ZerosAt mem a (4 * vs.length) → (∀ v, d v = 0#64) →
      ∀ v, A32.loadLanes mem index d a vs v = 0#64 := by
  induction vs with
  | nil =>
      intro d a _ hd v
      exact hd v
  | cons y vs ih =>
      intro d a h hd v
      rw [List.length_cons, Nat.mul_succ, Nat.add_comm] at h
      rw [A32.loadLanes]
      refine ih h.shift ?_ v
      intro x
      rw [h.load32, hd y, setLane_zero]
      by_cases hx : x = y
      · rw [hx, Function.update_self]
      · rw [Function.update_of_ne hx, hd x]

/-- Zero lanes stored over zeros. -/
theorem ZerosAt.storeLanes {mem : Word → BitVec 8} {index : BitVec 1}
    {d : BitVec 5 → BitVec 64} (hd : ∀ v, d v = 0#64)
    {vs : List (BitVec 5)} :
    ∀ {a : Word}, ZerosAt mem a (4 * vs.length) →
      A32.storeLanes d index mem a vs = mem := by
  induction vs with
  | nil =>
      intro a _
      rfl
  | cons y vs ih =>
      intro a h
      rw [List.length_cons, Nat.mul_succ, Nat.add_comm] at h
      rw [A32.storeLanes, hd y, getLane_zero, h.store32]
      exact ih h.shift

-- ============================================================ state updates

/-- Moving on alone. -/
theorem Still.next (h : Still zeroMem N Z s) : Onward zeroMem N Z s s.next :=
  ⟨rfl, rfl, rfl, fun _ _ => rfl, ⟨h.regs, h.pointer, h.neon, h.array⟩⟩

/-- A low register written, with zero if it is one of `Z`. -/
theorem Still.setReg (h : Still zeroMem N Z s) {rd : BitVec 4} {x : Word}
    (hrd : rd.toNat < 10) (hx : Z rd = true → x = 0#32) :
    Onward zeroMem N Z s (s.setReg rd x).next := by
  have hne : ∀ y : BitVec 4, 10 ≤ y.toNat → y ≠ rd := by
    rintro y hy rfl
    omega
  refine ⟨rfl, rfl, rfl, fun y hy => State.setReg_ne _ _ (hne y hy), ?_⟩
  refine ⟨fun y hy => ?_, ?_, h.neon, h.array⟩
  · by_cases hyr : y = rd
    · rw [hyr] at hy ⊢
      exact (State.setReg_self _ _ _).trans (hx hy)
    · exact (State.setReg_ne _ _ hyr).trans (h.regs y hy)
  · exact (State.setReg_ne _ _ (hne 11 (by decide))).trans h.pointer

/-- Memory written as it was. -/
theorem Onward.setMem {s' : State} {mem : Word → BitVec 8}
    (h : Onward zeroMem N Z s s') (hmem : mem = s.mem) :
    Onward zeroMem N Z s { s' with mem := mem } := by
  subst hmem
  rw [← h.mem]
  exact h

/-- Zeros in a D register, or in both halves of a Q register. -/
theorem Still.setVec (h : Still zeroMem N Z s) {q : BitVec 1} {vd : BitVec 5}
    {f : BitVec 5 → BitVec 64} (hf : N → ∀ x, f x = 0#64) :
    Onward zeroMem N Z s (A32.setVec s q vd f) := by
  have hset : ∀ (t : State) (y : BitVec 5) (x : BitVec 64), x = 0#64 →
      (∀ v, t.d v = 0#64) → ∀ v, (t.setD y x).d v = 0#64 := by
    intro t y x hx ht v
    by_cases hv : v = y
    · rw [hv, State.setD_self, hx]
    · rw [State.setD_ne _ _ hv, ht v]
  unfold A32.setVec
  split
  · exact ⟨rfl, rfl, rfl, fun _ _ => rfl, h.regs, h.pointer,
      fun hN => hset _ _ _ (hf hN 1) (hset s _ _ (hf hN 0) (h.neon hN)),
      h.array⟩
  · exact ⟨rfl, rfl, rfl, fun _ _ => rfl, h.regs, h.pointer,
      fun hN => hset s _ _ (hf hN 0) (h.neon hN), h.array⟩

-- ======================================================= one instruction

/-- An arithmetic instruction leaves one register other than zero. -/
theorem compute_step (h : Still zeroMem N Z s) {w : Word} {rd : BitVec 4}
    {sb : BitVec 1} (hq : quiet neon Z (.compute rd sb) = true) :
    ∃ s', A32.execTimed u w s (.compute rd sb) = some s'
      ∧ Onward zeroMem N Z s s' := by
  rw [quiet, Bool.and_eq_true, decide_eq_true_eq, Bool.not_eq_true'] at hq
  obtain ⟨hrd, hz⟩ := hq
  have hset := h.setReg (x := u.result w s) hrd fun hz' => by
    rw [hz] at hz'
    cases hz'
  simp only [A32.execTimed]
  split
  · exact ⟨_, rfl, hset.pc, hset.thumb, hset.mem, hset.high,
      ⟨hset.still.regs, hset.still.pointer, hset.still.neon,
        hset.still.array⟩⟩
  · exact ⟨_, rfl, hset⟩

/-- A word load at a zero offset. -/
theorem ldr_step (hu : Mapped zeroMem u) (h : Still zeroMem N Z s) {w : Word}
    {rt rn rm : BitVec 4} {add : BitVec 1} {lsl : BitVec 5}
    (hq : quiet neon Z (.ldr rt rn add rm lsl) = true) :
    ∃ s', A32.execTimed u w s (.ldr rt rn add rm lsl) = some s'
      ∧ Onward zeroMem N Z s s' := by
  rw [quiet, Bool.and_eq_true, Bool.and_eq_true, decide_eq_true_eq,
    beq_iff_eq] at hq
  obtain ⟨⟨hrt, rfl⟩, hrm⟩ := hq
  have haddr : (if add = 1#1 then s.r 11 + s.r rm <<< lsl.toNat
      else s.r 11 - s.r rm <<< lsl.toNat) = off zeroMem.addr 0 := by
    rw [h.regs rm hrm, BitVec.zero_shiftLeft, BitVec.add_zero,
      BitVec.sub_zero, ite_self, h.pointer, A32.off_zero]
  simp only [A32.execTimed, haddr]
  rw [if_pos (hu.maps (by decide)),
    (h.zerosAt (k := 0) (n := 4 + 0) (by decide)).load32]
  exact ⟨_, rfl, h.setReg hrt fun _ => rfl⟩

/-- A store of a zero register. -/
theorem str_step (hu : Mapped zeroMem u) (h : Still zeroMem N Z s) {w : Word}
    {byte : BitVec 1} {rt rn : BitVec 4} {offset : Int}
    (hq : quiet neon Z (.str byte rt rn offset) = true) :
    ∃ s', A32.execTimed u w s (.str byte rt rn offset) = some s'
      ∧ Onward zeroMem N Z s s' := by
  rw [quiet, Bool.and_eq_true, Bool.and_eq_true, decide_eq_true_eq,
    beq_iff_eq] at hq
  obtain ⟨⟨hrt, rfl⟩, h0, hfits⟩ := hq
  obtain ⟨k, rfl⟩ := Int.eq_ofNat_of_zero_le h0
  have hk : k + 4 ≤ zeroMemSize := by omega
  have haddr : s.r 11 + BitVec.ofInt 32 (k : Int) = off zeroMem.addr k := by
    rw [h.pointer, BitVec.ofInt_natCast]
    rfl
  simp only [A32.execTimed, haddr, h.regs rt hrt]
  split
  · rw [if_pos (hu.maps (by omega))]
    refine ⟨_, rfl, h.next.setMem ?_⟩
    have hbyte : s.mem (off zeroMem.addr k) = bits (0#32) 0 8 :=
      h.array k (by omega)
    rw [← hbyte, Function.update_eq_self]
  · rw [if_pos (hu.maps hk)]
    exact ⟨_, rfl, h.next.setMem (h.zerosAt (n := 4 + 0) hk).store32⟩

/-- An LDM of low registers. -/
theorem ldmia_step (hu : Mapped zeroMem u) (h : Still zeroMem N Z s)
    (halign : zeroMem.addr &&& 3#32 = 0#32) {w : Word} {rn : BitVec 4}
    {regs : BitVec 16} (hq : quiet neon Z (.ldmia rn regs) = true) :
    ∃ s', A32.execTimed u w s (.ldmia rn regs) = some s'
      ∧ Onward zeroMem N Z s s' := by
  rw [quiet, Bool.and_eq_true, beq_iff_eq, List.all_eq_true] at hq
  obtain ⟨rfl, hlow⟩ := hq
  have hlen : 0 + 4 * (A32.regList regs).length ≤ zeroMemSize := by
    have h16 : (A32.regList regs).length ≤ 16 := by
      unfold A32.regList
      rw [List.length_map]
      exact List.length_filter_le _ _
    simp only [zeroMemSize]
    omega
  have hmap := hu.maps hlen
  have hzero := h.zerosAt hlen
  rw [A32.off_zero] at hmap hzero
  -- a register of the list is loaded with zero, another is kept
  have hout : ∀ x : BitVec 4, 10 ≤ x.toNat → x ∉ A32.regList regs := by
    intro x hx hmem
    have hlt := of_decide_eq_true (hlow x hmem)
    have hlt' : x.toNat < 10 := hlt
    omega
  have hkeep : ∀ x : BitVec 4, 10 ≤ x.toNat →
      A32.loadRegs s.mem s.r zeroMem.addr (A32.regList regs) x = s.r x :=
    fun x hx => A32.loadRegs_of_not_mem _ _ (hout x hx)
  simp only [A32.execTimed, h.pointer]
  rw [if_pos ⟨halign, hmap⟩]
  refine ⟨_, rfl, rfl, rfl, rfl, hkeep, ?_, ?_, h.neon, h.array⟩
  · intro x hx
    by_cases hmem : x ∈ A32.regList regs
    · exact hzero.loadRegs hmem
    · exact (A32.loadRegs_of_not_mem _ _ hmem).trans (h.regs x hx)
  · exact (hkeep 11 (by decide)).trans h.pointer

/-- The exclusive accesses. -/
theorem ldrex_step (hu : Mapped zeroMem u) (h : Still zeroMem N Z s)
    (halign : zeroMem.addr &&& 3#32 = 0#32) {w : Word} {rt rn : BitVec 4}
    (hq : quiet neon Z (.ldrex rt rn) = true) :
    ∃ s', A32.execTimed u w s (.ldrex rt rn) = some s'
      ∧ Onward zeroMem N Z s s' := by
  rw [quiet, Bool.and_eq_true, decide_eq_true_eq, beq_iff_eq] at hq
  obtain ⟨hrt, rfl⟩ := hq
  have hmap := hu.maps (k := 0) (n := 4) (by decide)
  have hzero := h.zerosAt (k := 0) (n := 4 + 0) (by decide)
  rw [A32.off_zero] at hmap hzero
  simp only [A32.execTimed, h.pointer]
  rw [if_pos ⟨halign, hmap⟩, hzero.load32]
  exact ⟨_, rfl, h.setReg hrt fun _ => rfl⟩

theorem strex_step (hu : Mapped zeroMem u) (h : Still zeroMem N Z s)
    (halign : zeroMem.addr &&& 3#32 = 0#32) {w : Word}
    {rd rt rn : BitVec 4} (hq : quiet neon Z (.strex rd rt rn) = true) :
    ∃ s', A32.execTimed u w s (.strex rd rt rn) = some s'
      ∧ Onward zeroMem N Z s s' := by
  rw [quiet, Bool.and_eq_true, Bool.and_eq_true, Bool.and_eq_true,
    decide_eq_true_eq, beq_iff_eq, Bool.not_eq_true'] at hq
  obtain ⟨⟨⟨hrd, hz⟩, hrt⟩, rfl⟩ := hq
  have hmap := hu.maps (k := 0) (n := 4) (by decide)
  have hzero := h.zerosAt (k := 0) (n := 4 + 0) (by decide)
  rw [A32.off_zero] at hmap hzero
  have hset : ∀ x, Onward zeroMem N Z s (s.setReg rd x).next := fun x =>
    h.setReg hrd fun hz' => by
      rw [hz] at hz'
      cases hz'
  simp only [A32.execTimed, h.pointer]
  rw [if_pos ⟨halign, hmap⟩, h.regs rt hrt, hzero.store32]
  split
  · exact ⟨_, rfl, hset 0⟩
  · exact ⟨_, rfl, hset 1⟩

/-- The lanes of a load or a store. -/
theorem lane_step (hu : Mapped zeroMem u)
    (h : Still zeroMem (NeonZero u neon) Z s) {w : Word}
    {load index : BitVec 1} {n : BitVec 2} {inc : Nat} {vd : BitVec 5}
    {rn : BitVec 4}
    (hq : quiet neon Z (.lane load n index inc vd rn) = true) :
    ∃ s', A32.execTimed u w s (.lane load n index inc vd rn) = some s'
      ∧ Onward zeroMem (NeonZero u neon) Z s s' := by
  rw [quiet, Bool.and_eq_true, beq_iff_eq] at hq
  obtain ⟨rfl, hneon⟩ := hq
  have hd := h.neon (.inl hneon)
  have hlen : 0 + 4 * (A32.laneRegs vd n inc).length ≤ zeroMemSize := by
    have hn := n.isLt
    unfold A32.laneRegs
    rw [List.length_map, List.length_range]
    simp only [zeroMemSize]
    omega
  have hmap := hu.maps hlen
  have hzero := h.zerosAt hlen
  rw [A32.off_zero] at hmap hzero
  simp only [A32.execTimed, h.pointer]
  rw [if_pos hmap]
  split
  · exact ⟨_, rfl, rfl, rfl, rfl, fun _ _ => rfl, h.regs, h.pointer,
      fun _ => hzero.loadLanes hd, h.array⟩
  · exact ⟨_, rfl, h.next.setMem (ZerosAt.storeLanes hd hzero)⟩

/-- In a body that computes on the NEON registers they are zero only if
the units keep zeros. -/
theorem NeonZero.keepsZeros (h : NeonZero u neon) (hneon : (!neon) = true) :
    KeepsZeros u := by
  refine h.resolve_left fun htrue => ?_
  rw [htrue] at hneon
  cases hneon

/-- A quiet instruction does not fault, and keeps the zeros, r10 to r15
and memory. One case for each instruction. -/
theorem quiet_step (hu : Mapped zeroMem u)
    (h : Still zeroMem (NeonZero u neon) Z s)
    (halign : zeroMem.addr &&& 3#32 = 0#32) {w : Word} {i : Timed}
    (hq : quiet neon Z i = true) :
    ∃ s', A32.execTimed u w s i = some s'
      ∧ Onward zeroMem (NeonZero u neon) Z s s' := by
  cases i with
  | compute rd sb => exact compute_step h hq
  | addPc x => cases hq
  | ldr rt rn add rm lsl => exact ldr_step hu h hq
  | str byte rt rn offset => exact str_step hu h hq
  | ldmia rn regs => exact ldmia_step hu h halign hq
  | ldrex rt rn => exact ldrex_step hu h halign hq
  | strex rd rt rn => exact strex_step hu h halign hq
  | vr3 q vd vn vm =>
      refine ⟨_, rfl, h.setVec fun hN x => ?_⟩
      rw [h.neon hN, h.neon hN, h.neon hN]
      exact (hN.keepsZeros hq).vec w
  | vcvt q vd vm =>
      refine ⟨_, rfl, h.setVec fun hN x => ?_⟩
      rw [h.neon hN]
      exact (hN.keepsZeros hq).cvt w
  | lane load n index inc vd rn => exact lane_step hu h hq

/-- A word whose instruction is timed, unconditional and quiet. -/
def quietWord (neon : Bool) (Z : BitVec 4 → Bool) (w : Word) : Bool :=
  (A32.decodeOp w).isNone
    && match A32.decodeTimed w with
      | some (cond, i) => cond == 0xe && quiet neon Z i
      | none => false

/-- The machine's step at such a word. -/
theorem quietWord_step (hu : Mapped zeroMem u)
    (h : Still zeroMem (NeonZero u neon) Z s)
    (halign : zeroMem.addr &&& 3#32 = 0#32) {w : Word}
    (hq : quietWord neon Z w = true) :
    ∃ s', A32.exec (A32.timed u) w s = some s'
      ∧ Onward zeroMem (NeonZero u neon) Z s s' := by
  rw [quietWord, Bool.and_eq_true, Option.isNone_iff_eq_none] at hq
  obtain ⟨hop, hq⟩ := hq
  split at hq
  · next cond i hi =>
    rw [Bool.and_eq_true, beq_iff_eq] at hq
    obtain ⟨rfl, hq⟩ := hq
    obtain ⟨s', hs', hon⟩ := quiet_step (w := w) hu h halign hq
    refine ⟨s', ?_, hon⟩
    rw [A32.exec, hop]
    show A32.timed u w s = some s'
    rw [A32.timed, hi]
    exact hs'
  · cases hq

end

end UdeBench.Bench
