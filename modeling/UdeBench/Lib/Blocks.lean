/-
An allocator's blocks in byte memory with 64-bit addresses, and accesses
that stay in them.

Where the allocator puts its blocks is a parameter: the `n`-th call puts
its block at `place n`. It is answered when that block is fresh
(`Fresh`), otherwise it fails, which is the one error that is not the
program's. A request of more than half the address space is never
answered (`oversized`). A fresh block holds whatever the memory held.

An access of 64 bits must be aligned and lie in a live block.
-/
import UdeBench.Lib.ByteMem
import UdeBench.Lib.Yields

namespace UdeBench.Blocks

open Spans ByteMem

/-- A `size_t`. -/
abbrev Size := BitVec 64

/-- What can go wrong; `noReturn` is a loop that has run out of fuel. -/
inductive Fault
  | mallocFailed | oversized | badAccess | badFree | noReturn
deriving DecidableEq, Repr

/-- The excuse: the allocator had no fresh block. -/
def OutOfMemory (e : Fault) : Prop := e = .mallocFailed

/-- A range of memory. -/
structure Block where
  base : Addr
  size : Size
deriving DecidableEq, Repr

/-- The same range, in numbers. -/
def Block.span (b : Block) : Span := (b.base.toNat, b.size.toNat)

/-- The memory, the program's own object in it, the live blocks, the
calls the allocator has answered and the pointers given to `free`. -/
structure Sys where
  mem : ByteMem
  taken : Span
  live : List Block
  calls : Nat
  freed : List Addr

/-- Where the allocator puts the blocks of its calls. -/
abbrev Placement := Nat → Addr

/-- What every block is, wherever it lies. -/
def Placed (taken : Span) (b : Block) : Prop :=
  b.base ≠ 0 ∧ b.base.toNat % 16 = 0
    ∧ b.base.toNat + b.size.toNat < 2 ^ 63 ∧ Apart b.span taken

instance (taken : Span) (b : Block) : Decidable (Placed taken b) :=
  inferInstanceAs (Decidable (_ ∧ _ ∧ _ ∧ _))

/-- Two blocks: apart, and told apart by their addresses. -/
def Block.Beside (a b : Block) : Prop :=
  a.base ≠ b.base ∧ Apart a.span b.span

instance (a b : Block) : Decidable (a.Beside b) :=
  inferInstanceAs (Decidable (_ ∧ _))

/-- A block the allocator may hand out. -/
def Fresh (s : Sys) (b : Block) : Prop :=
  Placed s.taken b ∧ ∀ q ∈ s.live, b.Beside q

instance (s : Sys) (b : Block) : Decidable (Fresh s b) :=
  inferInstanceAs (Decidable (_ ∧ ∀ q ∈ s.live, _))

/-- `PTRDIFF_MAX`. -/
def ptrdiffMax : Nat := 2 ^ 63 - 1

/-- `malloc`. -/
def malloc (place : Placement) (s : Sys) (size : Size) :
    Except Fault (Sys × Addr) :=
  let b : Block := ⟨place s.calls, size⟩
  if ptrdiffMax < size.toNat then .error .oversized
  else if Fresh s b then
    .ok ({ s with live := b :: s.live, calls := s.calls + 1 }, b.base)
  else .error .mallocFailed

/-- `free`. -/
def free (s : Sys) (p : Addr) : Except Fault Sys :=
  match s.live.find? (fun b => b.base = p) with
  | none => .error .badFree
  | some b => .ok { s with live := s.live.erase b, freed := s.freed ++ [p] }

/-- 64 bits at an address lie in a block. -/
def Block.Covers (b : Block) (a : Addr) : Prop :=
  b.base.toNat ≤ a.toNat ∧ a.toNat + 8 ≤ b.base.toNat + b.size.toNat

instance (b : Block) (a : Addr) : Decidable (b.Covers a) :=
  inferInstanceAs (Decidable (_ ∧ _))

/-- Where 64 bits may be accessed. -/
def Accessible (s : Sys) (a : Addr) : Prop :=
  a.toNat % 8 = 0 ∧ ∃ b ∈ s.live, b.Covers a

instance (s : Sys) (a : Addr) : Decidable (Accessible s a) :=
  inferInstanceAs (Decidable (_ ∧ ∃ b ∈ s.live, _))

/-- A load of 64 bits. -/
def load (s : Sys) (a : Addr) : Except Fault Addr :=
  if Accessible s a then .ok (s.mem.load64 a) else .error .badAccess

/-- A store of 64 bits. -/
def store (s : Sys) (a v : Addr) : Except Fault Sys :=
  if Accessible s a then .ok { s with mem := s.mem.store64 a v }
  else .error .badAccess

-- ========================================================= live blocks

/-- The blocks of an allocator in order. -/
structure Sound (s : Sys) : Prop where
  placed : ∀ b ∈ s.live, Placed s.taken b
  beside : s.live.Pairwise Block.Beside

variable {place : Placement} {s s' : Sys} {size : Size} {b : Block}
  {l : List Block} {a v : Addr}

theorem Block.Beside.symm {a b : Block} (h : a.Beside b) : b.Beside a :=
  ⟨h.1.symm, h.2.symm⟩

/-- Blocks do not depend on what is in them. -/
theorem Sound.congr (h : Sound s) (htaken : s'.taken = s.taken)
    (hlive : s'.live = s.live) : Sound s' := by
  refine ⟨fun b hb => ?_, by rw [hlive]; exact h.beside⟩
  rw [htaken]
  rw [hlive] at hb
  exact h.placed b hb

/-- A block is found by its address. -/
theorem find_base (h : l.Pairwise Block.Beside) (hb : b ∈ l) :
    l.find? (fun c => c.base = b.base) = some b := by
  induction l with
  | nil => cases hb
  | cons c l ih =>
      obtain ⟨hc, hrest⟩ := List.pairwise_cons.mp h
      rcases List.mem_cons.mp hb with rfl | hb
      · simp
      · rw [List.find?_cons_of_neg (by simpa using (hc b hb).1)]
        exact ih hrest hb

-- ============================================================ the calls

/-- `malloc` adds a block. -/
theorem malloc_yields (place : Placement) (size : Size) (h : Sound s)
    (hsize : size.toNat ≤ ptrdiffMax) :
    Yields OutOfMemory (malloc place s size) fun r =>
      r.1 = { s with live := ⟨r.2, size⟩ :: s.live, calls := s.calls + 1 }
        ∧ Sound r.1 ∧ Fresh s ⟨r.2, size⟩ := by
  unfold malloc
  simp only [if_neg (Nat.not_lt.mpr hsize)]
  split
  · rename_i hf
    refine ⟨rfl, ⟨fun b hb => ?_, ?_⟩, hf⟩
    · rcases List.mem_cons.mp hb with rfl | hb
      · exact hf.1
      · exact h.placed b hb
    · exact List.pairwise_cons.mpr ⟨hf.2, h.beside⟩
  · exact rfl

/-- An answer is to a request of a size that objects may have. -/
theorem malloc_eq_ok {r : Sys × Addr} (h : malloc place s size = .ok r) :
    size.toNat ≤ ptrdiffMax ∧ Placed s.taken ⟨r.2, size⟩
      ∧ r.1 = { s with live := ⟨r.2, size⟩ :: s.live
                       calls := s.calls + 1 } := by
  unfold malloc at h
  simp only at h
  split at h
  · cases h
  · rename_i hsize
    split at h
    · rename_i hf
      cases h
      exact ⟨Nat.not_lt.mp hsize, hf.1, rfl⟩
    · cases h

/-- `free` releases a live block and is remembered. -/
theorem free_ok (h : Sound s) (hp : s.live.Perm (b :: l)) :
    ∃ s', free s b.base = .ok s' ∧ s'.live.Perm l ∧ s'.mem = s.mem
      ∧ s'.freed = s.freed ++ [b.base] ∧ Sound s' := by
  have hmem : b ∈ s.live := hp.mem_iff.mpr List.mem_cons_self
  have hrest : (s.live.erase b).Perm l := by
    have herase := hp.erase b
    rwa [List.erase_cons_head] at herase
  have hsub : (s.live.erase b).Sublist s.live := List.erase_sublist
  unfold free
  rw [find_base h.beside hmem]
  exact ⟨_, rfl, hrest, rfl, rfl, fun c hc => h.placed c (hsub.subset hc),
    h.beside.sublist hsub⟩

-- ============================================================ accesses

theorem Accessible.congr (hlive : s'.live = s.live) :
    Accessible s' a ↔ Accessible s a := by
  unfold Accessible
  rw [hlive]

/-- What is accessible does not depend on what was stored. -/
theorem accessible_mem (m : ByteMem) :
    Accessible { s with mem := m } a ↔ Accessible s a := Iff.rfl

theorem load_ok (h : Accessible s a) : load s a = .ok (s.mem.load64 a) :=
  if_pos h

theorem store_ok (v : Addr) (h : Accessible s a) :
    store s a v = .ok { s with mem := s.mem.store64 a v } :=
  if_pos h

theorem store_eq_ok (h : store s a v = .ok s') :
    Accessible s a ∧ s' = { s with mem := s.mem.store64 a v } := by
  unfold store at h
  split at h
  · cases h
    exact ⟨‹_›, rfl⟩
  · cases h

/-- Blocks are aligned, and so is what lies at a multiple of eight. -/
theorem accessible_of_mem (h : Sound s) (hb : b ∈ s.live)
    {d : Nat} (ha : a.toNat = b.base.toNat + d) (hd : d % 8 = 0)
    (hroom : d + 8 ≤ b.size.toNat) : Accessible s a := by
  obtain ⟨_, halign, _, _⟩ := h.placed b hb
  refine ⟨by omega, b, hb, ?_⟩
  unfold Block.Covers
  omega

end UdeBench.Blocks
