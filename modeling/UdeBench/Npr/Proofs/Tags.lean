/-
The boundary tags of npr/heap.c: what the last word of a chunk says of
the chunk and of the one behind it.

# Cells

A cell is a chunk with whether it is allocated. `Tagged` says of every
two cells that touch that the word at the border is the tag of the
first: its size, whether it is allocated, whether the second is. For a
chunk in hand the two borders are apart: `Front` is the word in front of
it, `Back` the word at its end. A chunk enters or leaves the cells with
both (`Tagged.cons`, `Tagged.uncons`).

Chunks of 32 bytes or more have their tag behind their links, so what is
done to the free list leaves the tags alone (`Layout.endWord_off`).
-/
import UdeBench.Npr.Proofs.HeapFree

namespace UdeBench.Npr.FirstFit

open Spans ByteMem Bits

-- ================================================================== tags

/-- A tag: the size of a chunk, whether it is allocated, and whether the
one behind it is. -/
def tagWord (size : Nat) (this next : Bool) : Word :=
  BitVec.ofNat 32 size ||| (if this then thisAllocatedBit else 0#32)
    ||| (if next then nextAllocatedBit else 0#32)

/-- The size in a tag does not touch the bits. -/
theorem size_and {n : Nat} (hn : n < 2 ^ 30) :
    BitVec.ofNat 32 n &&& sizeMask = BitVec.ofNat 32 n
      ∧ BitVec.ofNat 32 n &&& thisAllocatedBit = 0#32
      ∧ BitVec.ofNat 32 n &&& nextAllocatedBit = 0#32 := by
  have hmask : sizeMask = BitVec.ofNat 32 (2 ^ 30 - 1) := by decide
  have hthis : sizeMask &&& thisAllocatedBit = 0#32 := by decide
  have hnext : sizeMask &&& nextAllocatedBit = 0#32 := by decide
  have hsize : BitVec.ofNat 32 n &&& sizeMask = BitVec.ofNat 32 n := by
    apply BitVec.eq_of_toNat_eq
    rw [hmask, toNat_and_mask _ (by decide), BitVec.toNat_ofNat]
    omega
  refine ⟨hsize, ?_, ?_⟩
  · rw [← hsize, BitVec.and_assoc, hthis, BitVec.and_zero]
  · rw [← hsize, BitVec.and_assoc, hnext, BitVec.and_zero]

/-- What is read of a tag is what it says. -/
theorem tagWord_read {n : Nat} (hn : n < 2 ^ 30) (this next : Bool) :
    (tagWord n this next &&& sizeMask).toNat = n
      ∧ (tagWord n this next &&& thisAllocatedBit ≠ 0 ↔ this = true)
      ∧ (tagWord n this next &&& nextAllocatedBit ≠ 0 ↔ next = true) := by
  obtain ⟨hsize, hthis, hnext⟩ := size_and hn
  have hdistrib : ∀ x y z w : Word, (x ||| y ||| z) &&& w
      = (x &&& w) ||| (y &&& w) ||| (z &&& w) := by
    intro x y z w
    rw [BitVec.and_comm, BitVec.and_or_distrib_left,
      BitVec.and_or_distrib_left, BitVec.and_comm w x, BitVec.and_comm w y,
      BitVec.and_comm w z]
  unfold tagWord
  rw [hdistrib, hdistrib, hdistrib, hsize, hthis, hnext]
  refine ⟨?_, ?_, ?_⟩
  · have hnone : (if this then thisAllocatedBit else 0#32) &&& sizeMask = 0#32
        ∧ (if next then nextAllocatedBit else 0#32) &&& sizeMask = 0#32 := by
      cases this <;> cases next <;> decide
    rw [hnone.1, hnone.2, BitVec.or_zero, BitVec.or_zero, BitVec.toNat_ofNat]
    omega
  all_goals cases this <;> cases next <;> decide

/-- The bit for the chunk behind, set and cleared. -/
theorem tagWord_set (n : Nat) (this : Bool) :
    tagWord n this false ||| nextAllocatedBit = tagWord n this true := by
  unfold tagWord
  simp

theorem tagWord_clear {n : Nat} (hn : n < 2 ^ 30) (this : Bool) :
    tagWord n this true &&& ~~~nextAllocatedBit = tagWord n this false := by
  have hmask : sizeMask &&& ~~~nextAllocatedBit = sizeMask := by decide
  have hsize : BitVec.ofNat 32 n &&& ~~~nextAllocatedBit
      = BitVec.ofNat 32 n := by
    rw [← (size_and hn).1, BitVec.and_assoc, hmask]
  have hbits : (if this then thisAllocatedBit else 0#32)
      &&& ~~~nextAllocatedBit = if this then thisAllocatedBit else 0#32 := by
    cases this <;> decide
  have hnone : (if true then nextAllocatedBit else 0#32)
      &&& ~~~nextAllocatedBit = if false then nextAllocatedBit else 0#32 := by
    decide
  unfold tagWord
  rw [BitVec.and_comm, BitVec.and_or_distrib_left,
    BitVec.and_or_distrib_left, BitVec.and_comm _ (BitVec.ofNat 32 n), hsize,
    BitVec.and_comm _ (if this then thisAllocatedBit else 0#32), hbits,
    BitVec.and_comm _ (if true then nextAllocatedBit else 0#32), hnone]

/-- The tags that the code writes. -/
theorem tagWord_this (a : Size) :
    a.setWidth 32 ||| thisAllocatedBit = tagWord a.toNat true false := by
  unfold tagWord
  simp [BitVec.ofNat_toNat]

theorem tagWord_next (a : Size) :
    a.setWidth 32 ||| nextAllocatedBit = tagWord a.toNat false true := by
  unfold tagWord
  simp [BitVec.ofNat_toNat]

/-- The word that ends at an address. -/
def endWord (m : ByteMem) (e : Nat) : Word := m.load32 (BitVec.ofNat 64 (e - 4))

theorem endWord_eq {m : ByteMem} {x : Addr} {e : Nat} (h : x.toNat + 4 = e) :
    endWord m e = m.load32 x := by
  unfold endWord
  rw [← h, Nat.add_sub_cancel, BitVec.ofNat_toNat, BitVec.setWidth_eq]

theorem endWord_agree {m m' : ByteMem} {e : Nat} (h : e ≤ 2 ^ 63)
    (hagree : Agree (e - 4, 4) m m') : endWord m' e = endWord m e := by
  unfold endWord
  apply Agree.load32
  unfold span32
  rw [BitVec.toNat_ofNat, Nat.mod_eq_of_lt (by omega)]
  exact hagree

-- ================================================================= cells

/-- A chunk, and whether it is allocated. -/
structure Cell where
  span : Span
  live : Bool

/-- The cells of a heap. -/
def cells (k : Nat) (live : List Alloc) (free : List Chunk) : List Cell :=
  live.map (fun a => ⟨a.chunk k, true⟩) ++ free.map fun c => ⟨c.span, false⟩

/-- The word at every border is the tag of the chunk in front of it. -/
def Tagged (m : ByteMem) (cs : List Cell) : Prop :=
  ∀ x ∈ cs, ∀ y ∈ cs, y.span.1 = x.span.1 + x.span.2 →
    endWord m y.span.1 = tagWord x.span.2 x.live y.live

/-- The tag in front of an address, and the one at the end of a chunk. -/
def Front (m : ByteMem) (cs : List Cell) (p : Nat) (next : Bool) : Prop :=
  ∀ x ∈ cs, x.span.1 + x.span.2 = p → endWord m p = tagWord x.span.2 x.live next

def Back (m : ByteMem) (cs : List Cell) (q : Span) (this : Bool) : Prop :=
  ∀ y ∈ cs, y.span.1 = q.1 + q.2 →
    endWord m (q.1 + q.2) = tagWord q.2 this y.live

section
variable {m m' : ByteMem} {cs cs' : List Cell}

theorem Tagged.mono (h : Tagged m cs) (hsub : ∀ x ∈ cs', x ∈ cs) :
    Tagged m cs' :=
  fun x hx y hy hadj => h x (hsub x hx) y (hsub y hy) hadj

theorem Tagged.congr (h : Tagged m cs)
    (hword : ∀ x ∈ cs, ∀ y ∈ cs, y.span.1 = x.span.1 + x.span.2 →
      endWord m' y.span.1 = endWord m y.span.1) : Tagged m' cs := by
  intro x hx y hy hadj
  rw [hword x hx y hy hadj]
  exact h x hx y hy hadj

/-- A cell beside the others, and taken from them. -/
theorem Tagged.cons {z : Cell} (h : Tagged m cs) (hpos : 0 < z.span.2)
    (hfront : Front m cs z.span.1 z.live) (hback : Back m cs z.span z.live) :
    Tagged m (z :: cs) := by
  intro x hx y hy hadj
  rcases List.mem_cons.mp hx with rfl | hx'
  · rcases List.mem_cons.mp hy with rfl | hy'
    · omega
    · rw [hadj]
      exact hback y hy' hadj
  · rcases List.mem_cons.mp hy with rfl | hy'
    · exact hfront x hx' hadj.symm
    · exact h x hx' y hy' hadj

theorem Tagged.uncons {z : Cell} (h : Tagged m (z :: cs)) :
    Tagged m cs ∧ Front m cs z.span.1 z.live ∧ Back m cs z.span z.live := by
  refine ⟨h.mono fun x hx => List.mem_cons_of_mem _ hx, ?_, ?_⟩
  · intro x hx hend
    exact h x (List.mem_cons_of_mem _ hx) z List.mem_cons_self hend.symm
  · intro y hy hadj
    rw [← hadj]
    exact h z List.mem_cons_self y (List.mem_cons_of_mem _ hy) hadj

end

section
variable {k : Nat} {h : Heap} {os : Os} {live : List Alloc}
  {free : List Chunk} {held : List Span} {m m' : ByteMem}

theorem mem_cells {z : Cell} : z ∈ cells k live free ↔
    (∃ a ∈ live, z = ⟨a.chunk k, true⟩) ∨ ∃ c ∈ free, z = ⟨c.span, false⟩ := by
  unfold cells
  rw [List.mem_append, List.mem_map, List.mem_map]
  simp only [eq_comm]

/-- Cells are pieces. -/
theorem cell_piece {z : Cell} (hz : z ∈ cells k live free) :
    z.span ∈ pieces k live free held := by
  rcases mem_cells.mp hz with ⟨a, ha, rfl⟩ | ⟨c, hc, rfl⟩
  · exact Layout.chunk_mem ha
  · exact Layout.free_mem hc

/-- They lie apart from what is held. -/
theorem Layout.held_cell (hl : Layout k h os live free held) {q : Span}
    (hq : q ∈ held) {z : Cell} (hz : z ∈ cells k live free) :
    Apart q z.span := by
  rcases mem_cells.mp hz with ⟨a, ha, rfl⟩ | ⟨c, hc, rfl⟩
  · exact hl.held_live hq ha
  · exact hl.held_free hq hc

/-- The tag of a chunk is off the links, and off all else that is off the
chunk's end. -/
theorem Layout.endWord_off (hl : Layout k h os live free held)
    (hbig : ∀ q ∈ pieces k live free held, 32 ≤ q.2) {extra : List Span}
    (hout : OffLinks h free extra m m') {z : Cell}
    (hz : z ∈ cells k live free)
    (hextra : ∀ q ∈ extra, Apart (z.span.1 + z.span.2 - 4, 4) q) :
    endWord m' (z.span.1 + z.span.2) = endWord m (z.span.1 + z.span.2) := by
  have hpiece : z.span ∈ pieces k live free held := cell_piece hz
  have hsize := hbig _ hpiece
  obtain ⟨_, hhi, _⟩ := hl.piece_bounds hpiece
  apply endWord_agree hhi
  obtain ⟨hhead, htail⟩ := hl.off_ends
    (s := (z.span.1 + z.span.2 - 4, 4)) hpiece
    (by simp only; omega) (by simp only; omega)
  refine hout _ hhead htail (fun c hc => ?_) hextra
  by_cases hsame : c.span = z.span
  · -- its own links end 24 bytes behind its start
    have haddr : c.addr.toNat = z.span.1 := congrArg Prod.fst hsame
    rw [freeSpan_eq]
    unfold Apart
    simp only
    omega
  · apply hl.links_apart hc
    have hapart := hl.apart hpiece (Layout.free_mem hc) (Ne.symm hsame)
    unfold Apart at *
    simp only
    omega

end

end UdeBench.Npr.FirstFit
