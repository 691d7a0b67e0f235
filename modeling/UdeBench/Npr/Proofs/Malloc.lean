/-
What the allocator's calls leave: one lemma for each, under the
invariant that the live blocks lie apart (`Apart`), which every call
keeps.

Live blocks are counted up to their order. A caller that knows some of
them, its own, and leaves the rest open writes the list as a permutation
of its own blocks and the others'.
-/
import UdeBench.Lib.Yields
import UdeBench.Npr.Malloc

namespace UdeBench.Npr

/-- The excuse: the allocator had no fresh block. -/
def OutOfMemory (e : MemError) : Prop := e = .mallocFailed

-- ========================================================= live blocks

/-- Two live blocks: apart, and told apart by their addresses. -/
def Block.Beside (a b : Block) : Prop :=
  a.base ≠ b.base ∧ Spans.Apart a.span b.span

theorem Block.Beside.symm {a b : Block} (h : a.Beside b) : b.Beside a :=
  ⟨h.1.symm, h.2.symm⟩

/-- The live blocks of an allocator. -/
structure Live (live : List Block) : Prop where
  beside : live.Pairwise Block.Beside
  bound : ∀ b ∈ live, b.base.toNat + b.size.toNat < 2 ^ 32

theorem Live.perm {l l' : List Block} (h : Live l) (hp : l.Perm l') :
    Live l' :=
  ⟨(hp.pairwise_iff Block.Beside.symm).mp h.beside,
    fun b hb => h.bound b (hp.mem_iff.mpr hb)⟩

theorem Live.tail {b : Block} {l : List Block} (h : Live (b :: l)) :
    Live l :=
  ⟨(List.pairwise_cons.mp h.beside).2,
    fun c hc => h.bound c (List.mem_cons_of_mem _ hc)⟩

theorem Live.cons {b : Block} {l : List Block} (h : Live l)
    (hf : Fresh l b) : Live (b :: l) := by
  refine ⟨List.pairwise_cons.mpr ⟨hf.2, h.beside⟩, fun c hc => ?_⟩
  rcases List.mem_cons.mp hc with rfl | hc
  · exact hf.1
  · exact h.bound c hc

/-- Live blocks fit the address space together. -/
theorem Live.sum_le {l : List Block} (h : Live l) :
    (l.map fun b => b.size.toNat).sum ≤ 2 ^ 32 := by
  have hp : (l.map Block.span).Pairwise Spans.Apart := by
    rw [List.pairwise_map]
    exact h.beside.imp And.right
  have hsum : ((l.map Block.span).map Prod.snd).sum ≤ 2 ^ 32 := by
    apply Spans.sum_le_of_pairwise_apart hp
    intro a ha
    obtain ⟨b, hb, rfl⟩ := List.mem_map.mp ha
    exact Nat.le_of_lt (h.bound b hb)
  rw [List.map_map] at hsum
  exact hsum

/-- A block is found by its address. -/
theorem Live.find {b : Block} {l : List Block} (h : Live l) (hb : b ∈ l) :
    l.find? (fun c => c.base = b.base) = some b := by
  induction l with
  | nil => cases hb
  | cons c l ih =>
      rcases List.mem_cons.mp hb with rfl | hb
      · simp
      · have hne : c.base ≠ b.base :=
          ((List.pairwise_cons.mp h.beside).1 b hb).1
        rw [List.find?_cons_of_neg (by simpa using hne)]
        exact ih h.tail hb

-- ============================================================ the calls

/-- `malloc` adds a block. -/
theorem malloc_yields (place : Placement) {m : Mem} (h : Live m.live)
    (size : Word) :
    Yields OutOfMemory (malloc place m size) fun r =>
      r.1.live = ⟨r.2, size⟩ :: m.live ∧ r.1.freed = m.freed
        ∧ Live r.1.live := by
  unfold malloc
  by_cases hf : Fresh m.live ⟨place m.calls, size⟩
  · simp only [if_pos hf]
    exact ⟨rfl, rfl, h.cons hf⟩
  · simp only [if_neg hf]
    exact rfl

/-- A live block is released. -/
theorem release_ok {m : Mem} {b : Block} {l : List Block}
    (h : Live m.live) (hp : m.live.Perm (b :: l)) :
    ∃ m', release m b.base = .ok m' ∧ m'.live.Perm l
      ∧ m'.freed = m.freed ∧ Live m'.live := by
  have hmem : b ∈ m.live := hp.mem_iff.mpr List.mem_cons_self
  have hrest : (m.live.erase b).Perm l := by
    have herase := hp.erase b
    rwa [List.erase_cons_head] at herase
  unfold release
  rw [h.find hmem]
  exact ⟨_, rfl, hrest, rfl, ((h.perm hp).tail).perm hrest.symm⟩

/-- `free` releases a live block and is remembered. -/
theorem free_ok {m : Mem} {b : Block} {l : List Block} (h : Live m.live)
    (hp : m.live.Perm (b :: l)) :
    ∃ m', free m b.base = .ok m' ∧ m'.live.Perm l
      ∧ m'.freed = m.freed ++ [b.base] ∧ Live m'.live := by
  obtain ⟨m', hm', hlive, hfreed, hl⟩ := release_ok h hp
  unfold free
  rw [hm']
  exact ⟨_, rfl, hlive, by simp [hfreed], hl⟩

/-- A write within a live block. -/
theorem writeBytes_ok {m : Mem} {b : Block} {p n : Word} (hb : b ∈ m.live)
    (hlo : b.base.toNat ≤ p.toNat)
    (hhi : p.toNat + n.toNat ≤ b.base.toNat + b.size.toNat) :
    writeBytes m p n = .ok () := by
  have hany : (m.live.any fun b => decide (b.base.toNat ≤ p.toNat
      ∧ p.toNat + n.toNat ≤ b.base.toNat + b.size.toNat)) = true :=
    List.any_eq_true.mpr ⟨b, hb, decide_eq_true ⟨hlo, hhi⟩⟩
  unfold writeBytes
  rw [if_pos hany]

-- ================================================= arrays of pointers

/-- An array for `num` pointers, where the bytes can be counted. -/
theorem mallocPtrs_yields (place : Placement) {m : Mem} (h : Live m.live)
    {num : Word} (hnum : num.toNat < 2 ^ 30) :
    Yields OutOfMemory (mallocPtrs place m num) fun r =>
      r.1.live = ⟨r.2.base, ptrSize * num⟩ :: m.live
        ∧ r.1.freed = m.freed ∧ Live r.1.live
        ∧ r.2.cells.length = num.toNat := by
  have hbytes : (ptrSize * num).toNat / 4 = num.toNat := by
    have h4 : ptrSize.toNat = 4 := rfl
    rw [BitVec.toNat_mul, h4]
    omega
  unfold mallocPtrs
  refine (malloc_yields place h _).bind fun ⟨m', p⟩ ⟨hlive, hfreed, hl⟩ => ?_
  refine ⟨hlive, hfreed, hl, ?_⟩
  rw [List.length_replicate, hbytes]

/-- A longer array, with the cells there were. -/
theorem reallocPtrs_yields (place : Placement) {m : Mem} {a : PtrArray}
    {b : Block} {l : List Block} {num : Word} (h : Live m.live)
    (hp : m.live.Perm (b :: l)) (hb : b.base = a.base)
    (hnum : num.toNat < 2 ^ 30) (hle : a.cells.length ≤ num.toNat) :
    Yields OutOfMemory (reallocPtrs place m a num) fun r =>
      r.1.live.Perm (⟨r.2.base, ptrSize * num⟩ :: l)
        ∧ r.1.freed = m.freed ∧ Live r.1.live
        ∧ r.2.cells.length = num.toNat
        ∧ r.2.cells.take a.cells.length = a.cells := by
  have hbytes : (num * ptrSize).toNat / 4 = num.toNat := by
    have h4 : ptrSize.toNat = 4 := rfl
    rw [BitVec.toNat_mul, h4]
    omega
  obtain ⟨m₁, hm₁, hlive₁, hfreed₁, hl₁⟩ := release_ok h hp
  unfold reallocPtrs
  rw [← hb, hm₁]
  refine (malloc_yields place hl₁ _).bind fun ⟨m', p⟩ ⟨hlive, hfreed, hl⟩ => ?_
  refine ⟨?_, hfreed.trans hfreed₁, hl, ?_, ?_⟩
  · rw [BitVec.mul_comm ptrSize]
    show m'.live.Perm _
    rw [hlive]
    exact hlive₁.cons _
  · simp only [hbytes, List.length_append, List.length_take,
      List.length_replicate]
    omega
  · simp only [hbytes, List.take_of_length_le hle, List.take_left]

/-- A cell that holds a pointer. -/
theorem PtrArray.read_ok {a : PtrArray} {i p : Word}
    (h : a.cells[i.toNat]? = some (some p)) : a.read i = .ok p := by
  unfold read
  rw [h]

/-- A cell that is there is written. -/
theorem PtrArray.write_ok {a : PtrArray} {num i p : Word}
    (hnum : i.toNat < num.toNat) (hlen : num.toNat = a.cells.length) :
    a.write num i p
      = .ok ⟨a.base, a.cells.set i.toNat (some p)⟩ := by
  unfold write
  rw [if_pos ⟨hnum, hlen ▸ hnum⟩]

end UdeBench.Npr
