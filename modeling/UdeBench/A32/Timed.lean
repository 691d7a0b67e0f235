/-
The instructions the benchmarks time: data processing and multiplies,
loads and stores around `zero_mem`, exclusive accesses, and NEON
arithmetic, conversions and single lanes. `timed` is a value for the
machine's parameter `other`.

# What is left open

What an instruction computes is no matter here: the results and the
flags, the NEON arithmetic, whether a store exclusive succeeds and which
bytes a process may touch are parameters (`Units`). Where an instruction
reads and writes is not: an access to a byte that is not mapped faults,
and so does an exclusive access or an LDM that is not word-aligned.

A word with an operand the architecture leaves undefined or
unpredictable, or of a form no benchmark uses, is stuck.
-/
import UdeBench.A32.Exec

namespace UdeBench.A32

open Bits

-- ============================================================== the units

/-- What the machine leaves open. The first three are given the
instruction word. -/
structure Units where
  result : Word → State → Word
  flags : Word → State → Bool × Bool × Bool × Bool
  vec : Word → BitVec 64 → BitVec 64 → BitVec 64 → BitVec 64
  cvt : Word → BitVec 64 → BitVec 64
  exclusive : State → Bool
  mapped : Word → Bool

/-- All of `n` bytes from an address are mapped. -/
def Units.maps (u : Units) (a : Word) (n : Nat) : Bool :=
  (List.range n).all fun i => u.mapped (off a i)

-- =========================================================== instructions

/-- Three D or Q registers of one length. -/
structure Vr3 where
  q : BitVec 1
  vd : BitVec 5
  vn : BitVec 5
  vm : BitVec 5
deriving DecidableEq, Repr

def decodeVr3 (w : Word) : Option Vr3 :=
  if bits w 25 7 = 0b1111001#7 ∧ bits w 23 1 = 0#1 then
    some { q := bits w 6 1, vd := bits w 22 1 ++ bits w 12 4,
           vn := bits w 7 1 ++ bits w 16 4,
           vm := bits w 5 1 ++ bits w 0 4 }
  else none

/-- The instructions that are timed. A lane is word `index` of each of
`n` more registers, `inc` apart. -/
inductive Timed
  | compute (rd : BitVec 4) (s : BitVec 1)
  | addPc (x : Word)
  | ldr (rt rn : BitVec 4) (add : BitVec 1) (rm : BitVec 4) (lsl : BitVec 5)
  | str (byte : BitVec 1) (rt rn : BitVec 4) (offset : Int)
  | ldmia (rn : BitVec 4) (regs : BitVec 16)
  | ldrex (rt rn : BitVec 4)
  | strex (rd rt rn : BitVec 4)
  | vr3 (q : BitVec 1) (vd vn vm : BitVec 5)
  | vcvt (q : BitVec 1) (vd vm : BitVec 5)
  | lane (load : BitVec 1) (n : BitVec 2) (index : BitVec 1) (inc : Nat)
      (vd : BitVec 5) (rn : BitVec 4)
deriving DecidableEq, Repr

/-- The opcode of ADD. -/
def opAdd : BitVec 4 := 0b0100#4

/-- TST, TEQ, CMP and CMN have no destination. -/
def isTestOp (op : BitVec 4) : Bool := bits op 2 2 == 0b10#2

def timedOfDpReg (i : DpReg) : Option Timed :=
  if i.rd = rPc ∨ isTestOp i.op then none else some (.compute i.rd i.s)

/-- An ADD of an immediate to the pc is a branch. -/
def timedOfDpImm (i : DpImm) : Option Timed :=
  if isTestOp i.op then none
  else if i.rd ≠ rPc then some (.compute i.rd i.s)
  else if i.op = opAdd ∧ i.rn = rPc ∧ i.s = 0#1 then
    some (.addPc (expandImm i.imm12))
  else none

def timedOfMul (i : Mul) : Option Timed :=
  if i.rd = rPc then none else some (.compute i.rd i.s)

/-- A word load with a register offset, a store with an immediate one. -/
def timedOfLoadStore (i : LoadStore) : Option Timed :=
  if i.mode ≠ .offset ∨ i.rt = rPc ∨ i.rn = rPc then none
  else
    match i.offset with
    | .imm add imm12 =>
        if i.load = 0#1 then
          some (.str i.byte i.rt i.rn (immOffset add imm12))
        else none
    | .reg add rm type imm5 =>
        if i.load = 1#1 ∧ i.byte = 0#1 ∧ rm ≠ rPc ∧ type = 0#2 then
          some (.ldr i.rt i.rn add rm imm5)
        else none

/-- An LDMIA without writeback. -/
def timedOfBlock (i : Block) : Option Timed :=
  if i.p = 0#1 ∧ i.u = 1#1 ∧ i.s = 0#1 ∧ i.w = 0#1 ∧ i.load = 1#1
      ∧ i.regs ≠ 0#16 ∧ i.rn ≠ rPc ∧ i.regs.getLsbD 15 = false then
    some (.ldmia i.rn i.regs)
  else none

def timedOfExclusive : Exclusive → Option (BitVec 4 × Timed)
  | .ldrex cond rt rn =>
      if rt = rPc ∨ rn = rPc then none else some (cond, .ldrex rt rn)
  | .strex cond rd rt rn =>
      if rd = rPc ∨ rt = rPc ∨ rn = rPc ∨ rd = rn ∨ rd = rt then none
      else some (cond, .strex rd rt rn)

/-- A Q register is named by its even half. -/
def timedOfVr3 (i : Vr3) : Option Timed :=
  if i.q = 1#1 ∧ (i.vd.getLsbD 0 || i.vn.getLsbD 0 || i.vm.getLsbD 0) then
    none
  else some (.vr3 i.q i.vd i.vn i.vm)

/-- Between words and single precision. -/
def timedOfVcvt (i : Vcvt) : Option Timed :=
  if i.size ≠ 0b10#2 ∨ i.q = 1#1 ∧ (i.vd.getLsbD 0 || i.vm.getLsbD 0) then
    none
  else some (.vcvt i.q i.vd i.vm)

/-- Lanes of a word, unaligned, without writeback. -/
def timedOfLane (i : Lane) : Option Timed :=
  let inc := if i.indexAlign.getLsbD 2 then 2 else 1
  if i.size = 0b10#2 ∧ bits i.indexAlign 0 2 = 0#2 ∧ i.rm = rPc ∧ i.rn ≠ rPc
      ∧ i.vd.toNat + i.n.toNat * inc < 32 then
    some (.lane i.load i.n (bits i.indexAlign 3 1) inc i.vd i.rn)
  else none

/-- The timed instruction of a word and its condition. The diagrams do
not overlap, so the order says nothing. -/
def decodeTimed (w : Word) : Option (BitVec 4 × Timed) :=
  match decodeDpReg w with
  | some i => (timedOfDpReg i).map (i.cond, ·)
  | none =>
  match decodeDpImm w with
  | some i => (timedOfDpImm i).map (i.cond, ·)
  | none =>
  match decodeMul w with
  | some i => (timedOfMul i).map (i.cond, ·)
  | none =>
  match decodeLoadStore w with
  | some i => (timedOfLoadStore i).map (i.cond, ·)
  | none =>
  match decodeBlock w with
  | some i => (timedOfBlock i).map (i.cond, ·)
  | none =>
  match decodeExclusive w with
  | some i => timedOfExclusive i
  | none =>
  match decodeVr3 w with
  | some i => (timedOfVr3 i).map (0xe, ·)
  | none =>
  match decodeVcvt w with
  | some i => (timedOfVcvt i).map (0xe, ·)
  | none =>
  match decodeLane w with
  | some i => (timedOfLane i).map (0xe, ·)
  | none => none

-- ============================================================= execution

/-- A word of a D register. -/
def getLane (x : BitVec 64) (index : BitVec 1) : Word :=
  bits x (32 * index.toNat) 32

/-- A word of a D register replaced. -/
def setLane (x : BitVec 64) (index : BitVec 1) (w : Word) : BitVec 64 :=
  if index = 1#1 then w ++ bits x 0 32 else bits x 32 32 ++ w

/-- The D registers of a lane transfer, from the first. -/
def laneRegs (vd : BitVec 5) (n : BitVec 2) (inc : Nat) : List (BitVec 5) :=
  (List.range (n.toNat + 1)).map fun k => vd + BitVec.ofNat 5 (k * inc)

/-- Lanes loaded upwards from an address. -/
def loadLanes (mem : Word → BitVec 8) (index : BitVec 1) :
    (BitVec 5 → BitVec 64) → Word → List (BitVec 5) → BitVec 5 → BitVec 64
  | d, _, [] => d
  | d, a, v :: vs =>
      loadLanes mem index
        (Function.update d v (setLane (d v) index (load32 mem a)))
        (off a 4) vs

/-- Lanes stored upwards from an address. -/
def storeLanes (d : BitVec 5 → BitVec 64) (index : BitVec 1) :
    (Word → BitVec 8) → Word → List (BitVec 5) → Word → BitVec 8
  | mem, _, [] => mem
  | mem, a, v :: vs =>
      storeLanes d index (store32 mem a (getLane (d v) index)) (off a 4) vs

/-- A result in D registers: one, or the two halves of a Q register. -/
def setVec (s : State) (q : BitVec 1) (vd : BitVec 5)
    (f : BitVec 5 → BitVec 64) : State :=
  if q = 1#1 then ((s.setD vd (f 0)).setD (vd + 1) (f 1)).next
  else (s.setD vd (f 0)).next

/-- What a timed instruction does, its condition passed; `w` is its
word. -/
def execTimed (u : Units) (w : Word) (s : State) : Timed → Option State
  | .compute rd sb =>
      let s' := (s.setReg rd (u.result w s)).next
      if sb = 1#1 then
        let (n, z, c, v) := u.flags w s
        some { s' with n := n, z := z, c := c, v := v }
      else some s'
  | .addPc x => some (s.bxWritePc (s.read rPc + x))
  | .ldr rt rn add rm lsl =>
      let offset := s.r rm <<< lsl.toNat
      let a := if add = 1#1 then s.r rn + offset else s.r rn - offset
      if u.maps a 4 then some (s.setReg rt (load32 s.mem a)).next else none
  | .str byte rt rn offset =>
      let a := s.r rn + BitVec.ofInt 32 offset
      if byte = 1#1 then
        let mem := Function.update s.mem a (bits (s.r rt) 0 8)
        if u.maps a 1 then some { s with mem := mem }.next else none
      else if u.maps a 4 then
        some { s with mem := store32 s.mem a (s.r rt) }.next
      else none
  | .ldmia rn regs =>
      let a := s.r rn
      if a &&& 3#32 = 0#32 ∧ u.maps a (4 * (regList regs).length) then
        some { s with r := loadRegs s.mem s.r a (regList regs) }.next
      else none
  | .ldrex rt rn =>
      let a := s.r rn
      if a &&& 3#32 = 0#32 ∧ u.maps a 4 then
        some (s.setReg rt (load32 s.mem a)).next
      else none
  | .strex rd rt rn =>
      let a := s.r rn
      if a &&& 3#32 = 0#32 ∧ u.maps a 4 then
        if u.exclusive s then
          some ({ s with mem := store32 s.mem a (s.r rt) }.setReg rd 0).next
        else some (s.setReg rd 1).next
      else none
  | .vr3 q vd vn vm =>
      some (setVec s q vd fun h =>
        u.vec w (s.d (vd + h)) (s.d (vn + h)) (s.d (vm + h)))
  | .vcvt q vd vm => some (setVec s q vd fun h => u.cvt w (s.d (vm + h)))
  | .lane load n index inc vd rn =>
      let a := s.r rn
      let vs := laneRegs vd n inc
      if u.maps a (4 * vs.length) then
        if load = 1#1 then
          some { s with d := loadLanes s.mem index s.d a vs }.next
        else some { s with mem := storeLanes s.d index s.mem a vs }.next
      else none

/-- What the machine leaves to its parameter, for the timed
instructions. -/
def timed (u : Units) (w : Word) (s : State) : Option State :=
  match decodeTimed w with
  | none => none
  | some (cond, i) =>
      if condPassed cond s then execTimed u w s i else some s.next

end UdeBench.A32
