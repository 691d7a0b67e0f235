/-
npr/bits.h: counting, finding and numbering the bits of a word. The count
is by a table of bytes, npr/bits.c.

`npr_bsf32` is one machine instruction, which has no meaning for 0: here
it is the one of the heap (`FirstFit.bsf32`). `1 << pos` is a shift of an
`int` as compilers do it, the last position included.
-/
import UdeBench.Npr.Heap

namespace UdeBench.Npr.BitOps

/-- An `unsigned int`. -/
abbrev UInt := BitVec 32

/-- `npr_popcnt_tbl`. -/
def popcntTbl : List Nat := [
  0,1,1,2,1,2,2,3,1,2,2,3,2,3,3,4,
  1,2,2,3,2,3,3,4,2,3,3,4,3,4,4,5,
  1,2,2,3,2,3,3,4,2,3,3,4,3,4,4,5,
  2,3,3,4,3,4,4,5,3,4,4,5,4,5,5,6,
  1,2,2,3,2,3,3,4,2,3,3,4,3,4,4,5,
  2,3,3,4,3,4,4,5,3,4,4,5,4,5,5,6,
  2,3,3,4,3,4,4,5,3,4,4,5,4,5,5,6,
  3,4,4,5,4,5,5,6,4,5,5,6,5,6,6,7,
  1,2,2,3,2,3,3,4,2,3,3,4,3,4,4,5,
  2,3,3,4,3,4,4,5,3,4,4,5,4,5,5,6,
  2,3,3,4,3,4,4,5,3,4,4,5,4,5,5,6,
  3,4,4,5,4,5,5,6,4,5,5,6,5,6,6,7,
  2,3,3,4,3,4,4,5,3,4,4,5,4,5,5,6,
  3,4,4,5,4,5,5,6,4,5,5,6,5,6,6,7,
  3,4,4,5,4,5,5,6,4,5,5,6,5,6,6,7,
  4,5,5,6,5,6,6,7,5,6,6,7,6,7,7,8]

/-- `npr_popcnt_tbl[i]`. -/
def popcntAt (i : UInt) : UInt :=
  BitVec.ofNat 32 (popcntTbl.getD i.toNat 0)

/-- `npr_popcnt32`. -/
def popcnt32 (v : UInt) : UInt :=
  popcntAt (v >>> 24) + popcntAt ((v >>> 16) &&& 0xff)
    + popcntAt ((v >>> 8) &&& 0xff) + popcntAt ((v >>> 0) &&& 0xff)

/-- `npr_popcnt64`. -/
def popcnt64 (v : BitVec 64) : UInt :=
  popcnt32 ((v >>> 32).setWidth 32) + popcnt32 ((v &&& 0xffffffff).setWidth 32)

/-- `npr_bsf64`. -/
def bsf64 (v : BitVec 64) : Nat :=
  if v &&& 0xffffffff ≠ 0 then
    FirstFit.bsf32 ((v &&& 0xffffffff).setWidth 32)
  else FirstFit.bsf32 ((v >>> 32).setWidth 32) + 32

/-- `npr_find_bit_idx32_keymask`. -/
def findBitIdx32Keymask (bits key : UInt) : UInt :=
  popcnt32 ((key - 1) &&& bits)

/-- `npr_find_bit_idx32`. -/
def findBitIdx32 (bits pos : UInt) : UInt :=
  findBitIdx32Keymask bits ((1 : UInt) <<< pos.toNat)

/-- `npr_is_x2`. -/
def isX2 (bits : UInt) : Bool := ((bits - 1) &&& bits) = 0

end UdeBench.Npr.BitOps
