/-
What the chunk allocator keeps in order: its blocks are those of its
chunks, and its elements are live or free, each once.

# The invariant

`Inv` names the live elements, the free ones in the order of their chain,
and the chunks in the order of theirs. That elements lie apart, and apart
from every header, is a consequence: elements of one chunk do
(`slots_apart`), and so do the blocks of `malloc`. So the two chains are
safe from whatever is written to live elements (`Inv.congr`), and live
elements from what the allocator writes (`alloc_yields`, `free_ok`).
-/
import UdeBench.Npr.Proofs.Threading

namespace UdeBench.Npr.ChunkAlloc

open Spans ByteMem Chains
open Blocks (Fault Sys Sound Accessible)

-- ============================================================== invariant

/-- The two blocks of a chunk. -/
def blocksOf (m : ByteMem) (e n : Word) (c : Addr) : List Blocks.Block :=
  [⟨c, sizeofChunk⟩, ⟨m.load64 c, dataSize e n⟩]

/-- Two chunks whose blocks lie apart. -/
def ChunksBeside (m : ByteMem) (e n : Word) (c d : Addr) : Prop :=
  ∀ x ∈ blocksOf m e n c, ∀ y ∈ blocksOf m e n d, x.Beside y

instance (m : ByteMem) (e n : Word) : Std.Symm (ChunksBeside m e n) :=
  ⟨fun _ _ h y hy x hx => (h x hx y hy).symm⟩

/-- The elements of a chunk. -/
def elemsOf (m : ByteMem) (e n : Word) (c : Addr) : List Addr :=
  slots (m.load64 c) e n

/-- An allocator in order. -/
structure Inv (e n : Word) (s : Sys) (a : Allocator)
    (live free chunks : List Addr) : Prop where
  elemSize : a.elemSize = e
  chunkCount : a.chunkCount = n
  sound : Sound s
  chunkChain : Threaded 8 s.mem a.chunks chunks
  blocks : s.live.Perm (chunks.flatMap (blocksOf s.mem e n))
  freeChain : Threaded 0 s.mem a.top free
  slots : (live ++ free).Perm (chunks.flatMap (elemsOf s.mem e n))

variable {place : Blocks.Placement} {e n : Word} {s : Sys} {a : Allocator}
  {live free chunks : List Addr} {c p : Addr}

/-- The live elements are counted up to their order. -/
theorem Inv.perm {live' : List Addr} (h : Inv e n s a live free chunks)
    (hp : live'.Perm live) : Inv e n s a live' free chunks :=
  { h with slots := (hp.append_right free).trans h.slots }

theorem Inv.header_mem (h : Inv e n s a live free chunks)
    (hc : c ∈ chunks) : ⟨c, sizeofChunk⟩ ∈ s.live :=
  h.blocks.mem_iff.mpr (List.mem_flatMap.mpr ⟨c, hc, List.mem_cons_self⟩)

theorem Inv.data_mem (h : Inv e n s a live free chunks) (hc : c ∈ chunks) :
    ⟨s.mem.load64 c, dataSize e n⟩ ∈ s.live :=
  h.blocks.mem_iff.mpr (List.mem_flatMap.mpr
    ⟨c, hc, List.mem_cons_of_mem _ List.mem_cons_self⟩)

/-- The blocks of a chunk lie apart, and apart from another one's. -/
theorem Inv.beside (h : Inv e n s a live free chunks) :
    (∀ c ∈ chunks, (blocksOf s.mem e n c).Pairwise Blocks.Block.Beside)
      ∧ chunks.Pairwise (ChunksBeside s.mem e n) :=
  List.pairwise_flatMap.mp
    ((h.blocks.pairwise_iff Blocks.Block.Beside.symm).mp h.sound.beside)

/-- A header lies apart from every block of elements. -/
theorem Inv.header_apart (h : Inv e n s a live free chunks) {d : Addr}
    (hc : c ∈ chunks) (hd : d ∈ chunks) :
    Apart (headerSpan c) ((s.mem.load64 d).toNat, (dataSize e n).toNat) := by
  have hbeside : Blocks.Block.Beside ⟨c, sizeofChunk⟩
      ⟨s.mem.load64 d, dataSize e n⟩ := by
    by_cases hcd : c = d
    · subst hcd
      have hpair := h.beside.1 c hc
      exact (List.pairwise_cons.mp hpair).1 _ List.mem_cons_self
    · exact h.beside.2.forall hc hd hcd _ List.mem_cons_self _
        (List.mem_cons_of_mem _ List.mem_cons_self)
  exact hbeside.2

instance (e : Word) :
    Std.Symm fun p q => Apart (elemSpan e p) (elemSpan e q) :=
  ⟨fun _ _ => Apart.symm⟩

section
variable (hs : Sizes e n) (h : Inv e n s a live free chunks)
include hs h

/-- An element lies in the block of a chunk. -/
theorem Inv.elem (hp : p ∈ live ++ free) :
    ∃ c ∈ chunks, ∃ i, i < n.toNat ∧ slot (s.mem.load64 c) e i = p
      ∧ (s.mem.load64 c).toNat ≤ p.toNat
      ∧ p.toNat + e.toNat
        ≤ (s.mem.load64 c).toNat + (dataSize e n).toNat := by
  obtain ⟨c, hc, hslot⟩ := List.mem_flatMap.mp (h.slots.mem_iff.mp hp)
  obtain ⟨i, hi, rfl⟩ := mem_slots.mp hslot
  exact ⟨c, hc, i, hi, rfl, slot_within hs h.sound (h.data_mem hc) hi⟩

theorem Inv.accessible (hp : p ∈ live ++ free) : Accessible s p := by
  obtain ⟨c, hc, i, hi, rfl, _⟩ := h.elem hs hp
  exact slot_accessible hs h.sound (h.data_mem hc) hi

theorem Inv.elem_ne_zero (hp : p ∈ live ++ free) : p ≠ 0 := by
  obtain ⟨c, hc, i, hi, rfl, _⟩ := h.elem hs hp
  exact slot_ne_zero hs h.sound (h.data_mem hc) hi

/-- Elements lie apart from headers, and from the program's object. -/
theorem Inv.elem_header (hp : p ∈ live ++ free) (hc : c ∈ chunks) :
    Apart (elemSpan e p) (headerSpan c) := by
  obtain ⟨d, hd, _, _, _, hlo, hhi⟩ := h.elem hs hp
  have hapart := h.header_apart hc hd
  unfold Apart elemSpan headerSpan at *
  simp only at *
  omega

theorem Inv.elem_taken (hp : p ∈ live ++ free) :
    Apart (elemSpan e p) s.taken := by
  obtain ⟨d, hd, _, _, _, hlo, hhi⟩ := h.elem hs hp
  obtain ⟨_, _, _, hapart⟩ := h.sound.placed _ (h.data_mem hd)
  unfold Apart elemSpan Blocks.Block.span at *
  simp only at *
  omega

/-- Elements lie apart from each other. -/
theorem Inv.apart : (live ++ free).Pairwise fun p q =>
    Apart (elemSpan e p) (elemSpan e q) := by
  refine (h.slots.pairwise_iff Apart.symm).mpr ?_
  refine List.pairwise_flatMap.mpr ⟨fun c hc => ?_, ?_⟩
  · exact slots_apart hs h.sound (h.data_mem hc)
  · refine h.beside.2.imp_of_mem ?_
    intro c d hc hd hcd p hp q hq
    obtain ⟨i, hi, rfl⟩ := mem_slots.mp hp
    obtain ⟨j, hj, rfl⟩ := mem_slots.mp hq
    have hp' := slot_within hs h.sound (h.data_mem hc) hi
    have hq' := slot_within hs h.sound (h.data_mem hd) hj
    have hapart := (hcd _ (List.mem_cons_of_mem _ List.mem_cons_self) _
      (List.mem_cons_of_mem _ List.mem_cons_self)).2
    unfold Apart elemSpan Blocks.Block.span at *
    simp only at *
    omega

/-- Two different elements. -/
theorem Inv.apart_of_ne {q : Addr} (hp : p ∈ live ++ free)
    (hq : q ∈ live ++ free) (hne : p ≠ q) :
    Apart (elemSpan e p) (elemSpan e q) :=
  (h.apart hs).forall hp hq hne

/-- Elements are at addresses that programs have. -/
theorem Inv.elem_space (hp : p ∈ live ++ free) :
    p.toNat + e.toNat < 2 ^ 63 := by
  obtain ⟨c, hc, _, _, _, _, hhi⟩ := h.elem hs hp
  obtain ⟨_, _, hbound, _⟩ := h.sound.placed _ (h.data_mem hc)
  simp only at hbound
  omega

theorem Inv.nodup : (live ++ free).Nodup := by
  have helem := hs.elem
  refine List.Pairwise.imp ?_ (h.apart hs)
  rintro p q hapart rfl
  unfold Apart elemSpan at hapart
  simp only at hapart
  omega

/-- A live element and a free one. -/
theorem Inv.live_free {q : Addr} (hp : p ∈ live) (hq : q ∈ free) :
    Apart (elemSpan e p) (elemSpan e q) :=
  (List.pairwise_append.mp (h.apart hs)).2.2 p hp q hq

end

-- ================================================================ memories

/-- The pointers of a header that keeps its bytes. -/
theorem Inv.header_agree (h : Inv e n s a live free chunks) {m' : ByteMem}
    (hc : c ∈ chunks) (hm : Agree (headerSpan c) s.mem m') :
    m'.load64 c = s.mem.load64 c
      ∧ m'.load64 (chainOf c) = s.mem.load64 (chainOf c) := by
  have hoff := toNat_chainOf h.sound (h.header_mem hc)
  constructor
  · refine (hm.mono ?_ ?_).load64
    · exact Nat.le_refl _
    · show c.toNat + 8 ≤ c.toNat + 16
      omega
  · refine (hm.mono ?_ ?_).load64
    · show c.toNat ≤ (chainOf c).toNat
      omega
    · show (chainOf c).toNat + 8 ≤ c.toNat + 16
      omega

/-- What is known of the chunks where their headers are as they were. -/
theorem Inv.chunks_agree (h : Inv e n s a live free chunks)
    {m' : ByteMem} (hm : ∀ c ∈ chunks, Agree (headerSpan c) s.mem m') :
    Threaded 8 m' a.chunks chunks
      ∧ chunks.flatMap (blocksOf m' e n)
        = chunks.flatMap (blocksOf s.mem e n)
      ∧ chunks.flatMap (elemsOf m' e n)
        = chunks.flatMap (elemsOf s.mem e n) := by
  have hdata : ∀ c ∈ chunks, m'.load64 c = s.mem.load64 c := fun c hc =>
    (h.header_agree hc (hm c hc)).1
  refine ⟨?_, ?_, ?_⟩
  · exact h.chunkChain.congr fun c hc => (h.header_agree hc (hm c hc)).2
  · refine List.flatMap_congr fun c hc => ?_
    unfold blocksOf
    rw [hdata c hc]
  · refine List.flatMap_congr fun c hc => ?_
    unfold elemsOf
    rw [hdata c hc]

/-- An allocator is in order in every memory that has its headers and its
free elements. -/
theorem Inv.congr (h : Inv e n s a live free chunks) {m' : ByteMem}
    (hheaders : ∀ c ∈ chunks, Agree (headerSpan c) s.mem m')
    (hfree : ∀ p ∈ free, Agree (span64 p) s.mem m') :
    Inv e n { s with mem := m' } a live free chunks := by
  obtain ⟨hchunks, hblocks, helems⟩ := h.chunks_agree hheaders
  refine ⟨h.elemSize, h.chunkCount, h.sound.congr rfl rfl, hchunks, ?_, ?_,
    ?_⟩
  · exact h.blocks.trans (List.Perm.of_eq hblocks.symm)
  · refine h.freeChain.congr fun p hp => ?_
    rw [addr_zero]
    exact (hfree p hp).load64
  · exact h.slots.trans (List.Perm.of_eq helems.symm)

/-- What a program changes in its own object and in live elements. -/
theorem Inv.program (hs : Sizes e n) (h : Inv e n s a live free chunks)
    {m' : ByteMem}
    (hm : Within (s.taken :: live.map (elemSpan e)) s.mem m') :
    Inv e n { s with mem := m' } a live free chunks := by
  have helem := hs.elem
  refine h.congr (fun c hc => hm _ fun x hx => ?_)
    (fun q hq => hm _ fun x hx => ?_)
  · rcases List.mem_cons.mp hx with rfl | hx
    · exact (h.sound.placed _ (h.header_mem hc)).2.2.2
    · obtain ⟨p, hp, rfl⟩ := List.mem_map.mp hx
      exact (h.elem_header hs (List.mem_append_left free hp) hc).symm
  · have hapart : Apart (elemSpan e q) x := by
      rcases List.mem_cons.mp hx with rfl | hx
      · exact h.elem_taken hs (List.mem_append_right live hq)
      · obtain ⟨p, hp, rfl⟩ := List.mem_map.mp hx
        exact (h.live_free hs hp hq).symm
    unfold Apart elemSpan span64 at *
    simp only at *
    omega

/-- A change apart from the blocks keeps headers and elements. -/
theorem Inv.outside (hs : Sizes e n) (h : Inv e n s a live free chunks)
    {m' : ByteMem} {l : List Span} (hm : Within l s.mem m')
    (hl : ∀ b ∈ s.live, ∀ x ∈ l, Apart b.span x) :
    (∀ c ∈ chunks, Agree (headerSpan c) s.mem m')
      ∧ ∀ p ∈ live ++ free, Agree (elemSpan e p) s.mem m' := by
  constructor
  · intro c hc
    exact hm _ (hl _ (h.header_mem hc))
  · intro p hp
    obtain ⟨c, hc, _, _, _, hlo, hhi⟩ := h.elem hs hp
    exact (hm _ (hl _ (h.data_mem hc))).mono hlo hhi

-- =================================================================== alloc

/-- What an allocation leaves: an element that was not live, and the live
ones as they were. -/
structure Handed (e n : Word) (s : Sys) (live free : List Addr)
    (r : Sys × Allocator × Addr) : Prop where
  fresh : r.2.2 ∉ live
  inv : ∃ free' chunks', Inv e n r.1 r.2.1 (r.2.2 :: live) free' chunks'
  kept : ∀ q ∈ live, Agree (elemSpan e q) s.mem r.1.mem
  other : Agree s.taken s.mem r.1.mem
  taken : r.1.taken = s.taken
  freed : r.1.freed = s.freed
  calls : r.1.calls ≠ s.calls → free = []

/-- The first free element taken from its chain. -/
theorem Inv.pop (h : Inv e n s a live (p :: free) chunks) :
    a.top = p ∧ p ≠ 0
      ∧ Inv e n s { a with top := s.mem.load64 p } (p :: live) free chunks := by
  obtain ⟨htop, hne, hrest⟩ := threaded_cons.mp h.freeChain
  rw [addr_zero] at hrest
  exact ⟨htop, hne, h.elemSize, h.chunkCount, h.sound, h.chunkChain,
    h.blocks, hrest, List.perm_middle.symm.trans h.slots⟩

/-- The allocation of a free element. -/
theorem alloc_top (place : Blocks.Placement) (hs : Sizes e n)
    (h : Inv e n s a live (p :: free) chunks) :
    ∃ a', chunkAllocatorAlloc place s a = .ok (s, a', p)
      ∧ Inv e n s a' (p :: live) free chunks := by
  obtain ⟨htop, hne, hinv⟩ := h.pop
  have hacc : Accessible s p := h.accessible hs (by simp)
  unfold chunkAllocatorAlloc
  rw [htop, if_pos hne, Blocks.load_ok hacc]
  exact ⟨_, rfl, hinv⟩

/-- The blocks of a new chunk lie apart from the others. -/
theorem NewChunk.apart {s' : Sys} {buf : Addr} (h : NewChunk e n s s' c buf) :
    ∀ b ∈ s.live, ∀ x ∈ [headerSpan c, (buf.toNat, (dataSize e n).toNat)],
      Apart b.span x := by
  have hbeside := h.sound.beside
  rw [h.live] at hbeside
  obtain ⟨hheader, hbeside⟩ := List.pairwise_cons.mp hbeside
  obtain ⟨hdata, _⟩ := List.pairwise_cons.mp hbeside
  intro b hb x hx
  rcases List.mem_cons.mp hx with rfl | hx
  · exact (hheader b (List.mem_cons_of_mem _ hb)).2.symm
  · obtain rfl := List.mem_singleton.mp hx
    exact (hdata b hb).2.symm

theorem NewChunk.apart_taken {s' : Sys} {buf : Addr}
    (h : NewChunk e n s s' c buf) :
    ∀ x ∈ [headerSpan c, (buf.toNat, (dataSize e n).toNat)],
      Apart s.taken x := by
  have hplaced := h.sound.placed
  rw [h.live, h.taken] at hplaced
  intro x hx
  rcases List.mem_cons.mp hx with rfl | hx
  · exact (hplaced _ List.mem_cons_self).2.2.2.symm
  · obtain rfl := List.mem_singleton.mp hx
    exact (hplaced _ (List.mem_cons_of_mem _ List.mem_cons_self)).2.2.2.symm

/-- The first element of a chunk. -/
theorem slots_eq_cons (hs : Sizes e n) (buf : Addr) :
    ∃ rest, slots buf e n = buf :: rest := by
  obtain ⟨k, hk⟩ := Nat.exists_eq_add_of_le hs.count
  have hfirst : slot buf e 0 = buf := by
    unfold slot
    rw [Nat.zero_mul]
    exact addr_zero buf
  unfold slots
  rw [hk, Nat.add_comm, List.range_succ_eq_map, List.map_cons, hfirst]
  exact ⟨_, rfl⟩

/-- A new chunk in front of the others, with all its elements free. -/
theorem NewChunk.inv (hs : Sizes e n) (h : Inv e n s a live [] chunks)
    {s' : Sys} {buf : Addr} (hnew : NewChunk e n s s' c buf) {m' : ByteMem}
    (hm : Within [headerSpan c] s'.mem m') (hdata : m'.load64 c = buf)
    (hchain : m'.load64 (chainOf c) = a.chunks) :
    Inv e n { s' with mem := m' } { a with top := buf, chunks := c } live
      (slots buf e n) (c :: chunks) := by
  have hchange : Within [headerSpan c, (buf.toNat, (dataSize e n).toNat)]
      s.mem m' :=
    hnew.within.trans (hm.mono fun x hx =>
      ⟨x, List.mem_cons.mpr (.inl (List.mem_singleton.mp hx)), Nat.le_refl _,
        Nat.le_refl _⟩)
  obtain ⟨hold, _⟩ := h.outside hs hchange hnew.apart
  obtain ⟨hchunks, hblocks, helems⟩ := h.chunks_agree hold
  refine ⟨h.elemSize, h.chunkCount, hnew.sound.congr rfl rfl, ?_, ?_, ?_, ?_⟩
  · refine threaded_cons.mpr ⟨rfl, (hnew.sound.placed _ hnew.header_mem).1, ?_⟩
    show Threaded 8 m' (m'.load64 (chainOf c)) chunks
    rwa [hchain]
  · show s'.live.Perm (blocksOf m' e n c ++ chunks.flatMap (blocksOf m' e n))
    rw [hnew.live, hblocks]
    unfold blocksOf
    rw [hdata]
    exact (h.blocks.cons _).cons _
  · -- the header lies apart from the elements
    refine hnew.free.congr fun p hp => ?_
    obtain ⟨i, hi, rfl⟩ := mem_slots.mp hp
    obtain ⟨hlo, hhi⟩ := slot_within hs hnew.sound hnew.data_mem hi
    have helem := hs.elem
    have hbeside := hnew.sound.beside
    rw [hnew.live] at hbeside
    have hapart : Apart (headerSpan c) (buf.toNat, (dataSize e n).toNat) :=
      ((List.pairwise_cons.mp hbeside).1 _ List.mem_cons_self).2
    rw [addr_zero]
    apply Agree.load64
    refine hm _ fun x hx => ?_
    obtain rfl := List.mem_singleton.mp hx
    unfold Apart headerSpan span64 at *
    simp only at *
    omega
  · show (live ++ slots buf e n).Perm (elemsOf m' e n c
      ++ chunks.flatMap (elemsOf m' e n))
    have hlive := h.slots
    rw [List.append_nil] at hlive
    rw [helems]
    unfold elemsOf
    rw [hdata]
    exact List.perm_append_comm.trans (hlive.append_left _)

/-- `npr_chunk_allocator_init`. -/
theorem allocatorInit_yields (place : Blocks.Placement) (mem : ByteMem)
    (taken : Span) (hs : Sizes e n) :
    Yields Blocks.OutOfMemory (chunkAllocatorInit place (boot mem taken) e n)
      fun r => (∃ free chunks, Inv e n r.1 r.2 [] free chunks)
        ∧ r.1.taken = taken ∧ r.1.freed = [] := by
  have hsound : Sound (boot mem taken) :=
    ⟨fun _ hb => (nomatch hb), List.Pairwise.nil⟩
  have hempty : Inv e n (boot mem taken) ⟨0, e, n, 0⟩ [] [] [] :=
    ⟨rfl, rfl, hsound, threaded_nil.mpr rfl, List.Perm.refl _,
      threaded_nil.mpr rfl, List.Perm.refl _⟩
  unfold chunkAllocatorInit
  refine (allocChunk_yields place hs hsound).bind ?_
  rintro ⟨s₁, c⟩ ⟨buf, hnew⟩
  change NewChunk e n _ s₁ c buf at hnew
  have hloads := (header_accessible hnew.sound hnew.header_mem).1
  simp only [Blocks.load_ok hloads, bind, Except.bind, hnew.data]
  exact ⟨⟨_, _, hnew.inv hs hempty (Within.refl _ _) hnew.data hnew.chain⟩,
    hnew.taken, hnew.freed⟩

/-- The first element of a new chunk, where there was no free one. -/
theorem alloc_refill (place : Blocks.Placement) (hs : Sizes e n)
    (h : Inv e n s a live [] chunks) :
    Yields Blocks.OutOfMemory (chunkAllocatorAlloc place s a)
      (Handed e n s live []) := by
  have htop : a.top = 0 := threaded_nil.mp h.freeChain
  unfold chunkAllocatorAlloc
  rw [if_neg (not_not.mpr htop), h.elemSize, h.chunkCount]
  refine (allocChunk_yields place hs h.sound).bind ?_
  rintro ⟨s₁, c⟩ ⟨buf, hnew⟩
  change NewChunk e n s s₁ c buf at hnew
  have hoff := toNat_chainOf hnew.sound hnew.header_mem
  obtain ⟨hacc, hacc_chain⟩ := header_accessible hnew.sound hnew.header_mem
  have hwithin := within_header (l := [headerSpan c]) List.mem_cons_self
    (.inr hoff) s₁.mem a.chunks
  have hdata : (s₁.mem.store64 (chainOf c) a.chunks).load64 c = buf := by
    rw [← hnew.data]
    apply Agree.load64
    apply agree_store64
    left
    unfold span64
    simp only
    omega
  have hinv := hnew.inv hs h hwithin hdata (load64_store64 _ _ _)
  obtain ⟨rest, hrest⟩ := slots_eq_cons hs buf
  rw [hrest] at hinv
  have hacc' : Accessible { s₁ with
      mem := s₁.mem.store64 (chainOf c) a.chunks } buf :=
    hinv.accessible hs (by simp)
  have hload : Blocks.load { s₁ with
      mem := s₁.mem.store64 (chainOf c) a.chunks } c = .ok buf := by
    rw [Blocks.load_ok ((Blocks.accessible_mem _).mpr hacc)]
    exact congrArg _ hdata
  simp only [Blocks.store_ok a.chunks hacc_chain, bind, Except.bind, hload,
    Blocks.load_ok hacc']
  have hchange : Within [headerSpan c, (buf.toNat, (dataSize e n).toNat)]
      s.mem (s₁.mem.store64 (chainOf c) a.chunks) :=
    hnew.within.trans (within_header List.mem_cons_self (.inr hoff) _ _)
  obtain ⟨_, hkept⟩ := h.outside hs hchange hnew.apart
  refine ⟨?_, ⟨rest, c :: chunks, ?_⟩, ?_, ?_, hnew.taken, hnew.freed,
    fun _ => rfl⟩
  · have hnodup := List.nodup_middle.mp (hinv.nodup hs)
    exact fun hmem => (List.nodup_cons.mp hnodup).1
      (List.mem_append_left rest hmem)
  · have hpop := hinv.pop.2.2
    rw [h.elemSize, h.chunkCount] at hpop
    exact hpop
  · exact fun q hq => hkept q (List.mem_append_left _ hq)
  · exact hchange _ hnew.apart_taken

/-- `npr_chunk_allocator_alloc`. -/
theorem alloc_yields (place : Blocks.Placement) (hs : Sizes e n)
    (h : Inv e n s a live free chunks) :
    Yields Blocks.OutOfMemory (chunkAllocatorAlloc place s a)
      (Handed e n s live free) := by
  cases free with
  | nil => exact alloc_refill place hs h
  | cons p free =>
      obtain ⟨a', halloc, hinv⟩ := alloc_top place hs h
      have hnodup := List.nodup_middle.mp (h.nodup hs)
      rw [halloc]
      exact ⟨fun hmem => (List.nodup_cons.mp hnodup).1
          (List.mem_append_left free hmem),
        ⟨free, chunks, hinv⟩, fun q _ => Agree.refl _ _, Agree.refl _ _, rfl,
        rfl, fun hne => absurd rfl hne⟩

-- ==================================================================== free

/-- `npr_chunk_allocator_free`, of a live element: it writes into that
element alone. -/
theorem free_ok (hs : Sizes e n) (h : Inv e n s a (p :: live) free chunks) :
    ∃ m' a', chunkAllocatorFree s a p = .ok ({ s with mem := m' }, a')
      ∧ Inv e n { s with mem := m' } a' live (p :: free) chunks
      ∧ Within [elemSpan e p] s.mem m' := by
  have hmem : p ∈ (p :: live) ++ free := List.mem_cons_self
  have hacc := h.accessible hs hmem
  have helem := hs.elem
  have hwithin : Within [elemSpan e p] s.mem (s.mem.store64 p a.top) :=
    within_store64 (List.mem_singleton.mpr rfl) (Nat.le_refl _)
      (Nat.add_le_add_left helem _) _ _
  unfold chunkAllocatorFree
  rw [Blocks.store_ok a.top hacc]
  refine ⟨_, _, rfl, ?_, hwithin⟩
  have hcongr : Inv e n { s with mem := s.mem.store64 p a.top } a (p :: live)
      free chunks := by
    refine h.congr (fun c hc => hwithin _ fun x hx => ?_)
      (fun q hq => agree_store64 ?_ _ _)
    · obtain rfl := List.mem_singleton.mp hx
      exact (h.elem_header hs hmem hc).symm
    · have hapart := h.live_free hs List.mem_cons_self hq
      unfold Apart elemSpan span64 at *
      simp only at *
      omega
  refine ⟨hcongr.elemSize, hcongr.chunkCount, hcongr.sound,
    hcongr.chunkChain, hcongr.blocks, ?_, ?_⟩
  · refine threaded_cons.mpr ⟨rfl, h.elem_ne_zero hs hmem, ?_⟩
    show Threaded 0 _ ((s.mem.store64 p a.top).load64 (p + 0)) free
    rw [addr_zero, load64_store64]
    exact hcongr.freeChain
  · exact List.perm_middle.trans hcongr.slots

end UdeBench.Npr.ChunkAlloc
