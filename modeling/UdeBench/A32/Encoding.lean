/-
The A32 encoding diagrams, as decoders: what an instruction word says,
field by field. One decoder per diagram, each total on words and `none`
off its diagram, so that a claim about one class of instructions reads
one definition.

Fields keep their widths (`BitVec 4` for a register number or a
condition, `BitVec 12` for an immediate), so a decoded instruction
cannot hold an operand the diagram has no room for. The condition 1111
is the unconditional space and belongs to no class here.
-/
import UdeBench.Lib.Bits

namespace UdeBench.A32

open Bits

/-- An instruction or data word. -/
abbrev Word := BitVec 32

-- ====================================== data processing (immediate)

/-- Data processing with a modified immediate: `op` is the four-bit
opcode, `imm12` the rotation and the byte. -/
structure DpImm where
  cond : BitVec 4
  op : BitVec 4
  s : BitVec 1
  rn : BitVec 4
  rd : BitVec 4
  imm12 : BitVec 12
deriving DecidableEq, Repr

/-- Opcodes TST..CMN exist with S set only: with S clear the diagram
holds MOVW, MOVT, MSR and the hints. -/
def decodeDpImm (w : Word) : Option DpImm :=
  if bits w 28 4 ≠ 0xf#4 ∧ bits w 25 3 = 0b001#3
      ∧ ¬ (bits w 23 2 = 0b10#2 ∧ bits w 20 1 = 0#1) then
    some { cond := bits w 28 4, op := bits w 21 4, s := bits w 20 1,
           rn := bits w 16 4, rd := bits w 12 4, imm12 := bits w 0 12 }
  else none

/-- The opcode of MOV. -/
def opMov : BitVec 4 := 0b1101#4

/-- The opcode of MVN. -/
def opMvn : BitVec 4 := 0b1111#4

/-- The opcode of SUB. -/
def opSub : BitVec 4 := 0b0010#4

/-- A32ExpandImm: the byte `imm12<7:0>` rotated right by twice
`imm12<11:8>`. -/
def expandImm (imm12 : BitVec 12) : Word :=
  ((imm12.extractLsb' 0 8).setWidth 32).rotateRight
    (2 * (imm12.extractLsb' 8 4).toNat)

-- ======================================== data processing (register)

/-- The shift of a second operand: its type, and the field imm5 or the
register that holds the amount. The field is as encoded: LSR and ASR with
0 shift by 32, ROR with 0 is RRX. -/
inductive DpShift
  | imm (type : BitVec 2) (imm5 : BitVec 5)
  | reg (type : BitVec 2) (rs : BitVec 4)
deriving DecidableEq, Repr

/-- Data processing with a shifted register. -/
structure DpReg where
  cond : BitVec 4
  op : BitVec 4
  s : BitVec 1
  rn : BitVec 4
  rd : BitVec 4
  rm : BitVec 4
  shift : DpShift
deriving DecidableEq, Repr

/-- Opcodes TST..CMN exist with S set only, and with bits 7 and 4 both
set the word is a multiply or an extra load or store. -/
def decodeDpReg (w : Word) : Option DpReg :=
  if bits w 28 4 ≠ 0xf#4 ∧ bits w 25 3 = 0b000#3
      ∧ ¬ (bits w 23 2 = 0b10#2 ∧ bits w 20 1 = 0#1)
      ∧ ¬ (bits w 7 1 = 1#1 ∧ bits w 4 1 = 1#1) then
    some { cond := bits w 28 4, op := bits w 21 4, s := bits w 20 1,
           rn := bits w 16 4, rd := bits w 12 4, rm := bits w 0 4,
           shift :=
             if bits w 4 1 = 0#1 then .imm (bits w 5 2) (bits w 7 5)
             else .reg (bits w 5 2) (bits w 8 4) }
  else none

-- ============================== load/store word and unsigned byte

/-- The addressing modes of P and W: P=0, W=1 is the unprivileged
access (LDRT and its siblings), not an indexing mode. -/
inductive AddrMode
  | offset | preIndexed | postIndexed | unprivileged
deriving DecidableEq, Repr

/-- The addressing mode P and W select. -/
def addrMode (p w : BitVec 1) : AddrMode :=
  if p = 1#1 then (if w = 0#1 then .offset else .preIndexed)
  else (if w = 0#1 then .postIndexed else .unprivileged)

/-- The offset operand: an immediate with its sign, or a register and the
fields of its shift, as encoded. -/
inductive LsOffset
  | imm (add : BitVec 1) (imm12 : BitVec 12)
  | reg (add : BitVec 1) (rm : BitVec 4) (type : BitVec 2)
      (imm5 : BitVec 5)
deriving DecidableEq, Repr

/-- A load or store of a word or an unsigned byte. -/
structure LoadStore where
  cond : BitVec 4
  load : BitVec 1
  byte : BitVec 1
  mode : AddrMode
  rn : BitVec 4
  rt : BitVec 4
  offset : LsOffset
deriving DecidableEq, Repr

/-- With bit 25 set, bit 4 must be clear: otherwise the word is a media
instruction. -/
def decodeLoadStore (w : Word) : Option LoadStore :=
  if bits w 28 4 ≠ 0xf#4 ∧ bits w 26 2 = 0b01#2
      ∧ ¬ (bits w 25 1 = 1#1 ∧ bits w 4 1 = 1#1) then
    some { cond := bits w 28 4, load := bits w 20 1, byte := bits w 22 1,
           mode := addrMode (bits w 24 1) (bits w 21 1),
           rn := bits w 16 4, rt := bits w 12 4,
           offset :=
             if bits w 25 1 = 0#1 then .imm (bits w 23 1) (bits w 0 12)
             else .reg (bits w 23 1) (bits w 0 4) (bits w 5 2)
               (bits w 7 5) }
  else none

/-- The byte offset of an immediate form: `imm12` with the sign U
gives it. -/
def immOffset (add : BitVec 1) (imm12 : BitVec 12) : Int :=
  if add = 1#1 then imm12.toNat else -imm12.toNat

-- ============================================ block data transfer

/-- LDM and STM: `p`, `u` the order and direction, `s` the user-bank
bit, `w` writeback, `load` the direction of the transfer. -/
structure Block where
  cond : BitVec 4
  p : BitVec 1
  u : BitVec 1
  s : BitVec 1
  w : BitVec 1
  load : BitVec 1
  rn : BitVec 4
  regs : BitVec 16
deriving DecidableEq, Repr

def decodeBlock (w : Word) : Option Block :=
  if bits w 28 4 ≠ 0xf#4 ∧ bits w 25 3 = 0b100#3 then
    some { cond := bits w 28 4, p := bits w 24 1, u := bits w 23 1,
           s := bits w 22 1, w := bits w 21 1, load := bits w 20 1,
           rn := bits w 16 4, regs := bits w 0 16 }
  else none

-- ======================================================== branches

/-- B and BL: the link bit and the signed word offset. -/
structure Branch where
  cond : BitVec 4
  link : BitVec 1
  imm24 : BitVec 24
deriving DecidableEq, Repr

def decodeBranch (w : Word) : Option Branch :=
  if bits w 28 4 ≠ 0xf#4 ∧ bits w 25 3 = 0b101#3 then
    some { cond := bits w 28 4, link := bits w 24 1,
           imm24 := bits w 0 24 }
  else none

/-- BX: the register that holds the target. -/
structure Bx where
  cond : BitVec 4
  rm : BitVec 4
deriving DecidableEq, Repr

def decodeBx (w : Word) : Option Bx :=
  if bits w 28 4 ≠ 0xf#4 ∧ bits w 4 24 = 0x12fff1#24 then
    some { cond := bits w 28 4, rm := bits w 0 4 }
  else none

-- ====================================================== multiplication

/-- MUL and MLA: with `accumulate`, `ra` is added. -/
structure Mul where
  cond : BitVec 4
  accumulate : BitVec 1
  s : BitVec 1
  rd : BitVec 4
  ra : BitVec 4
  rm : BitVec 4
  rn : BitVec 4
deriving DecidableEq, Repr

def decodeMul (w : Word) : Option Mul :=
  if bits w 28 4 ≠ 0xf#4 ∧ bits w 22 6 = 0b000000#6
      ∧ bits w 4 4 = 0b1001#4 then
    some { cond := bits w 28 4, accumulate := bits w 21 1,
           s := bits w 20 1, rd := bits w 16 4, ra := bits w 12 4,
           rm := bits w 8 4, rn := bits w 0 4 }
  else none

-- ================================================ exclusive accesses

/-- LDREX and STREX of a word. A load has `rt` in bits 12 to 15, a store
the register of its status there and `rt` in bits 0 to 3. -/
inductive Exclusive
  | ldrex (cond rt rn : BitVec 4)
  | strex (cond rd rt rn : BitVec 4)
deriving DecidableEq, Repr

def decodeExclusive (w : Word) : Option Exclusive :=
  if bits w 28 4 ≠ 0xf#4 ∧ bits w 23 5 = 0b00011#5 ∧ bits w 21 2 = 0b00#2
      ∧ bits w 8 4 = 0xf#4 ∧ bits w 4 4 = 0b1001#4 then
    if bits w 20 1 = 0#1 then
      some (.strex (bits w 28 4) (bits w 12 4) (bits w 0 4) (bits w 16 4))
    else if bits w 0 4 = 0xf#4 then
      some (.ldrex (bits w 28 4) (bits w 12 4) (bits w 16 4))
    else none
  else none

-- ================================================ VDUP (core register)

/-- VDUP from a core register: `b`, `e` the element size, `q` the
vector length, `vd` the D register `D:Vd`. -/
structure Vdup where
  cond : BitVec 4
  b : BitVec 1
  q : BitVec 1
  vd : BitVec 5
  rt : BitVec 4
  e : BitVec 1
deriving DecidableEq, Repr

def decodeVdup (w : Word) : Option Vdup :=
  if bits w 28 4 ≠ 0xf#4 ∧ bits w 23 5 = 0b11101#5 ∧ bits w 20 1 = 0#1
      ∧ bits w 8 4 = 0b1011#4 ∧ bits w 6 1 = 0#1
      ∧ bits w 0 5 = 0b10000#5 then
    some { cond := bits w 28 4, b := bits w 22 1, q := bits w 21 1,
           vd := bits w 7 1 ++ bits w 16 4, rt := bits w 12 4,
           e := bits w 5 1 }
  else none

-- ============================================= VCVT (integer, vector)

/-- VCVT between 32-bit floats and integers: `op` the direction and the
signedness. -/
structure Vcvt where
  op : BitVec 2
  size : BitVec 2
  q : BitVec 1
  vd : BitVec 5
  vm : BitVec 5
deriving DecidableEq, Repr

def decodeVcvt (w : Word) : Option Vcvt :=
  if bits w 23 9 = 0b111100111#9 ∧ bits w 20 2 = 0b11#2
      ∧ bits w 16 2 = 0b11#2 ∧ bits w 9 3 = 0b011#3
      ∧ bits w 4 1 = 0#1 then
    some { op := bits w 7 2, size := bits w 18 2, q := bits w 6 1,
           vd := bits w 22 1 ++ bits w 12 4,
           vm := bits w 5 1 ++ bits w 0 4 }
  else none

-- ====================================== VLD and VST of a single lane

/-- VLD1 to VLD4 and VST1 to VST4 of one lane: `n` is one less than the
number of registers, `size` the element size. -/
structure Lane where
  load : BitVec 1
  n : BitVec 2
  size : BitVec 2
  vd : BitVec 5
  rn : BitVec 4
  rm : BitVec 4
  indexAlign : BitVec 4
deriving DecidableEq, Repr

/-- The size 11 is the load to all lanes. -/
def decodeLane (w : Word) : Option Lane :=
  if bits w 23 9 = 0b111101001#9 ∧ bits w 20 1 = 0#1
      ∧ bits w 10 2 ≠ 0b11#2 then
    some { load := bits w 21 1, n := bits w 8 2, size := bits w 10 2,
           vd := bits w 22 1 ++ bits w 12 4, rn := bits w 16 4,
           rm := bits w 0 4, indexAlign := bits w 4 4 }
  else none

-- ============================================================ classes

/-- An instruction of the classes above that take no label and are no
data processing or single load and store. -/
inductive Instr
  | bx (x : Bx) | mul (x : Mul) | block (x : Block)
  | exclusive (x : Exclusive) | vdup (x : Vdup) | vcvt (x : Vcvt)
  | lane (x : Lane)
deriving DecidableEq, Repr

/-- The instruction of a word. -/
def decode (w : Word) : Option Instr :=
  (decodeMul w).map .mul <|> (decodeBlock w).map .block
    <|> (decodeExclusive w).map .exclusive <|> (decodeVdup w).map .vdup
    <|> (decodeVcvt w).map .vcvt <|> (decodeLane w).map .lane
    <|> (decodeBx w).map .bx

end UdeBench.A32
