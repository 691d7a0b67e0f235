/-
The C library's allocator as the pools of npr/ use it, on a target with
32-bit pointers: `malloc`, `realloc` and `free` with the blocks that are
live, and the arrays of pointers kept in them.

Where the allocator puts its blocks is a parameter: the `n`-th call puts
its block at `place n`. The call succeeds when that block is fresh: past
no end of the address space, at no live block's address and apart from
all of them. Otherwise it has failed (`mallocFailed`), which is the one
error that is not the program's.

Contents are modelled for arrays of pointers only. A cell that was never
written is `none`, and reading it is an error.
-/
import UdeBench.Lib.Spans

namespace UdeBench.Npr

/-- An `unsigned int`, and with 32-bit pointers a `size_t` or an address
too. -/
abbrev Word := BitVec 32

/-- What can go wrong. -/
inductive MemError
  | mallocFailed | outOfBounds | badFree | noReturn
deriving DecidableEq, Repr

-- =============================================================== blocks

/-- A range of memory. -/
structure Block where
  base : Word
  size : Word
deriving DecidableEq, Repr

/-- The same range, in numbers. -/
def Block.span (b : Block) : Spans.Span := (b.base.toNat, b.size.toNat)

/-- A block the allocator may hand out beside the live ones. -/
def Fresh (live : List Block) (b : Block) : Prop :=
  b.base.toNat + b.size.toNat < 2 ^ 32
    ∧ ∀ c ∈ live, b.base ≠ c.base ∧ Spans.Apart b.span c.span

instance (live : List Block) (b : Block) : Decidable (Fresh live b) :=
  inferInstanceAs (Decidable (_ ∧ ∀ c ∈ live, _ ∧ _))

/-- The allocator: its live blocks, the calls it has answered, and every
pointer that was given to `free`. -/
structure Mem where
  live : List Block
  calls : Nat
  freed : List Word
deriving DecidableEq, Repr

/-- Where the allocator puts the blocks of its calls. -/
abbrev Placement := Nat → Word

/-- `malloc`. -/
def malloc (place : Placement) (m : Mem) (size : Word) :
    Except MemError (Mem × Word) :=
  let b : Block := ⟨place m.calls, size⟩
  if Fresh m.live b then
    .ok ({ m with live := b :: m.live, calls := m.calls + 1 }, b.base)
  else .error .mallocFailed

/-- The block a pointer was handed out for, taken out of the live ones. -/
def release (m : Mem) (p : Word) : Except MemError Mem :=
  match m.live.find? (fun b => b.base = p) with
  | none => .error .badFree
  | some b => .ok { m with live := m.live.erase b }

/-- `free`. -/
def free (m : Mem) (p : Word) : Except MemError Mem := do
  let m ← release m p
  .ok { m with freed := m.freed ++ [p] }

/-- A write of `n` bytes from an address on, within a live block. -/
def writeBytes (m : Mem) (p : Word) (n : Word) : Except MemError Unit :=
  if m.live.any fun b => b.base.toNat ≤ p.toNat
      ∧ p.toNat + n.toNat ≤ b.base.toNat + b.size.toNat then .ok ()
  else .error .outOfBounds

-- ==================================================== arrays of pointers

/-- An array of pointers: its block's address and its cells. -/
structure PtrArray where
  base : Word
  cells : List (Option Word)
deriving DecidableEq, Repr

/-- `sizeof(unsigned char*)`. -/
def ptrSize : Word := 4

/-- `malloc` for `num` pointers. -/
def mallocPtrs (place : Placement) (m : Mem) (num : Word) :
    Except MemError (Mem × PtrArray) := do
  let (m, p) ← malloc place m (ptrSize * num)
  .ok (m, ⟨p, List.replicate ((ptrSize * num).toNat / 4) none⟩)

/-- `realloc` to `num` pointers: the old block goes, and the cells that
fit move. -/
def reallocPtrs (place : Placement) (m : Mem) (a : PtrArray) (num : Word) :
    Except MemError (Mem × PtrArray) := do
  let m ← release m a.base
  let (m, p) ← malloc place m (num * ptrSize)
  let n := (num * ptrSize).toNat / 4
  .ok (m, ⟨p, a.cells.take n ++ List.replicate (n - a.cells.length) none⟩)

/-- `a[i]`. -/
def PtrArray.read (a : PtrArray) (i : Word) : Except MemError Word :=
  match a.cells[i.toNat]? with
  | some (some p) => .ok p
  | _ => .error .outOfBounds

/-- `a[i] = p`, where `num` cells are meant to be there. -/
def PtrArray.write (a : PtrArray) (num i p : Word) :
    Except MemError PtrArray :=
  if i.toNat < num.toNat ∧ i.toNat < a.cells.length then
    .ok { a with cells := a.cells.set i.toNat (some p) }
  else .error .outOfBounds

end UdeBench.Npr
