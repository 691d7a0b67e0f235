/-
A machine for the A32 instructions the generated functions are framed
by: moves and subtractions of an immediate, word loads with an immediate
offset, the full-descending push and the pop, branches and the VDUP of a
core register. They follow the encoding decoders of Encoding.lean.

# The rest of the instruction set

What any other word does is the parameter `other`: the benchmarked
instructions are free, and what a result needs of them it states as a
hypothesis about the run. A word of a class above with an operand the
architecture leaves unpredictable (r15 where it is not allowed, a base
register in its own list) is left to `other` as well.

# State

Memory is bytes, words are little-endian, and reading r15 gives the
instruction's address plus 8. A transfer of several registers faults on
an address that is not word-aligned.
-/
import UdeBench.A32.Encoding
import Mathlib.Logic.Function.Basic

namespace UdeBench.A32

open Bits

-- ================================================================= state

/-- The processor: r0 to r14, the pc, the flags, d0 to d31, the memory
and the T bit. -/
structure State where
  r : BitVec 4 → Word
  pc : Word
  n : Bool
  z : Bool
  c : Bool
  v : Bool
  d : BitVec 5 → BitVec 64
  mem : Word → BitVec 8
  thumb : Bool

/-- The address `n` bytes past another. -/
def off (a : Word) (n : Nat) : Word := a + BitVec.ofNat 32 n

/-- The little-endian word at an address. -/
def load32 (mem : Word → BitVec 8) (a : Word) : Word :=
  mem (off a 3) ++ mem (off a 2) ++ mem (off a 1) ++ mem (off a 0)

/-- A word stored at an address. -/
def store32 (mem : Word → BitVec 8) (a w : Word) : Word → BitVec 8 :=
  fun b =>
    if b = off a 0 then bits w 0 8
    else if b = off a 1 then bits w 8 8
    else if b = off a 2 then bits w 16 8
    else if b = off a 3 then bits w 24 8
    else mem b

/-- A register written. -/
def State.setReg (s : State) (r : BitVec 4) (x : Word) : State :=
  { s with r := Function.update s.r r x }

/-- A D register written. -/
def State.setD (s : State) (r : BitVec 5) (x : BitVec 64) : State :=
  { s with d := Function.update s.d r x }

/-- On to the next instruction. -/
def State.next (s : State) : State := { s with pc := off s.pc 4 }

/-- ConditionPassed. -/
def condPassed (cond : BitVec 4) (s : State) : Bool :=
  match cond with
  | 0x0#4 => s.z
  | 0x1#4 => !s.z
  | 0x2#4 => s.c
  | 0x3#4 => !s.c
  | 0x4#4 => s.n
  | 0x5#4 => !s.n
  | 0x6#4 => s.v
  | 0x7#4 => !s.v
  | 0x8#4 => s.c && !s.z
  | 0x9#4 => !s.c || s.z
  | 0xa#4 => s.n == s.v
  | 0xb#4 => s.n != s.v
  | 0xc#4 => !s.z && s.n == s.v
  | 0xd#4 => s.z || s.n != s.v
  | _ => true

-- ========================================================== instructions

/-- The instructions of the machine's own. -/
inductive Op
  | mov (rd : BitVec 4) (x : Word)
  | mvn (rd : BitVec 4) (x : Word)
  | sub (rd rn : BitVec 4) (x : Word)
  | subs (rd rn : BitVec 4) (x : Word)
  | ldr (rt rn : BitVec 4) (offset : Int)
  | stmdb (rn : BitVec 4) (regs : BitVec 16)
  | ldmia (rn : BitVec 4) (regs : BitVec 16)
  | b (link : BitVec 1) (imm24 : BitVec 24)
  | bx (rm : BitVec 4)
  | vdup (q : BitVec 1) (vd : BitVec 5) (rt : BitVec 4)
deriving DecidableEq

/-- The program counter, as a register number. -/
def rPc : BitVec 4 := 0xf

/-- The registers of a list, lowest first. -/
def regList (regs : BitVec 16) : List (BitVec 4) :=
  ((List.range 16).filter fun i => regs.getLsbD i).map (BitVec.ofNat 4)

/-- The data processing instructions of the machine. -/
def opOfDpImm (i : DpImm) : Option Op :=
  if i.rd = rPc then none
  else if i.op = opMov ∧ i.s = 0#1 then
    some (.mov i.rd (expandImm i.imm12))
  else if i.op = opMvn ∧ i.s = 0#1 then
    some (.mvn i.rd (expandImm i.imm12))
  else if i.op = opSub ∧ i.rn ≠ rPc then
    if i.s = 0#1 then some (.sub i.rd i.rn (expandImm i.imm12))
    else some (.subs i.rd i.rn (expandImm i.imm12))
  else none

/-- The word loads of the machine. -/
def opOfLoadStore (i : LoadStore) : Option Op :=
  match i.offset with
  | .imm add imm12 =>
      if i.load = 1#1 ∧ i.byte = 0#1 ∧ i.mode = .offset ∧ i.rt ≠ rPc then
        some (.ldr i.rt i.rn (immOffset add imm12))
      else none
  | .reg .. => none

/-- The transfers of several registers of the machine. -/
def opOfBlock (i : Block) : Option Op :=
  if i.s = 0#1 ∧ i.w = 1#1 ∧ i.regs ≠ 0#16 ∧ i.rn ≠ rPc
      ∧ rPc ∉ regList i.regs ∧ i.rn ∉ regList i.regs then
    if i.p = 1#1 ∧ i.u = 0#1 ∧ i.load = 0#1 then
      some (.stmdb i.rn i.regs)
    else if i.p = 0#1 ∧ i.u = 1#1 ∧ i.load = 1#1 then
      some (.ldmia i.rn i.regs)
    else none
  else none

/-- The VDUPs of the machine: a word to all elements; a Q register is
named by its even half. -/
def opOfVdup (i : Vdup) : Option Op :=
  if i.b = 0#1 ∧ i.e = 0#1 ∧ i.rt ≠ rPc
      ∧ (i.q = 1#1 → i.vd.getLsbD 0 = false) then
    some (.vdup i.q i.vd i.rt)
  else none

/-- The instruction of a word and its condition. The diagrams do not
overlap, so the order says nothing. -/
def decodeOp (w : Word) : Option (BitVec 4 × Op) :=
  match decodeBx w with
  | some i => if i.rm = rPc then none else some (i.cond, .bx i.rm)
  | none =>
  match decodeDpImm w with
  | some i => (opOfDpImm i).map (i.cond, ·)
  | none =>
  match decodeLoadStore w with
  | some i => (opOfLoadStore i).map (i.cond, ·)
  | none =>
  match decodeBlock w with
  | some i => (opOfBlock i).map (i.cond, ·)
  | none =>
  match decodeBranch w with
  | some i => some (i.cond, .b i.link i.imm24)
  | none =>
  match decodeVdup w with
  | some i => (opOfVdup i).map (i.cond, ·)
  | none => none

-- ============================================================= execution

/-- Registers stored upwards from an address. -/
def storeRegs (mem : Word → BitVec 8) (r : BitVec 4 → Word) :
    Word → List (BitVec 4) → Word → BitVec 8
  | _, [] => mem
  | a, x :: xs => store32 (storeRegs mem r (off a 4) xs) a (r x)

/-- Registers loaded upwards from an address. -/
def loadRegs (mem : Word → BitVec 8) (r : BitVec 4 → Word) :
    Word → List (BitVec 4) → BitVec 4 → Word
  | _, [] => r
  | a, x :: xs =>
      Function.update (loadRegs mem r (off a 4) xs) x (load32 mem a)

/-- What a register reads as: r15 is 8 bytes ahead. -/
def State.read (s : State) (r : BitVec 4) : Word :=
  if r = rPc then off s.pc 8 else s.r r

/-- BXWritePC: the low bit selects the instruction set. -/
def State.bxWritePc (s : State) (a : Word) : State :=
  if a.getLsbD 0 then { s with pc := a &&& ~~~1#32, thumb := true }
  else { s with pc := a &&& ~~~3#32, thumb := false }

/-- What an instruction does, its condition passed. -/
def execOp (s : State) : Op → Option State
  | .mov rd x => some (s.setReg rd x).next
  | .mvn rd x => some (s.setReg rd (~~~x)).next
  | .sub rd rn x => some (s.setReg rd (s.r rn - x)).next
  | .subs rd rn x =>
      let y := s.r rn - x
      some { (s.setReg rd y).next with
        n := y.msb
        z := y == 0#32
        c := !(s.r rn).ult x
        v := (s.r rn).ssubOverflow x }
  | .ldr rt rn offset =>
      let base := if rn = rPc then s.read rn &&& ~~~3#32 else s.read rn
      some (s.setReg rt
        (load32 s.mem (base + BitVec.ofInt 32 offset))).next
  | .stmdb rn regs =>
      let a := s.r rn - BitVec.ofNat 32 (4 * (regList regs).length)
      if a &&& 3#32 = 0#32 then
        some ({ s with mem := storeRegs s.mem s.r a (regList regs) }.setReg
          rn a).next
      else none
  | .ldmia rn regs =>
      let a := s.r rn
      if a &&& 3#32 = 0#32 then
        some ({ s with r := loadRegs s.mem s.r a (regList regs) }.setReg rn
          (off a (4 * (regList regs).length))).next
      else none
  | .b link imm24 =>
      let s' := if link = 1#1 then s.setReg 14 (off s.pc 4) else s
      some { s' with pc := off s.pc 8 + (imm24.signExtend 32 <<< 2) }
  | .bx rm => some (s.bxWritePc (s.r rm))
  | .vdup q vd rt =>
      let x := s.r rt ++ s.r rt
      if q = 1#1 then some ((s.setD vd x).setD (vd + 1) x).next
      else some (s.setD vd x).next

/-- One instruction word. -/
def exec (other : Word → State → Option State) (w : Word) (s : State) :
    Option State :=
  match decodeOp w with
  | none => other w s
  | some (cond, op) =>
      if condPassed cond s then execOp s op else some s.next

/-- Fetch and execute, in A32 state. -/
def step (other : Word → State → Option State) (s : State) : Option State :=
  if s.thumb then none else exec other (load32 s.mem s.pc) s

end UdeBench.A32
