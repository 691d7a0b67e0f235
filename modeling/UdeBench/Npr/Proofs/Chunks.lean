/-
What is true of a heap between two steps, and in the middle of one.

The regions behind their page headers are cut into chunks: those of live
allocations, those of the free list, and those the code has in hand
(`held`). `Layout` is what the numbers say: the chunks lie apart, in
mapped regions. `Marks` is what the bytes say beside the free list: the
sizes of the free chunks, the tags of the allocated ones, the list of
pages. `Inv` is the two and the free list.

# Frames

The free list is threaded through chunks, so a store to one chunk's
links is never far from the others. `OffLinks` says that a change stays
within the links of the free list and within what is held; the marks and
every payload are elsewhere (`Marks.frame`, `OffLinks.payload`).
-/
import UdeBench.Lib.Tiling
import UdeBench.Npr.Proofs.Sizes

namespace UdeBench.Npr.FirstFit

open Spans ByteMem

-- =============================================================== chunks

/-- A free chunk. -/
structure Chunk where
  addr : Addr
  size : Size
deriving DecidableEq, Repr

def Chunk.span (c : Chunk) : Span := (c.addr.toNat, c.size.toNat)

/-- The links of a chunk in the free list. -/
def freeSpan (a : Addr) : Span := DList.span freeLinks a

theorem freeSpan_eq (a : Addr) : freeSpan a = (a.toNat + 8, 16) := rfl

section
variable (k : Nat)

/-- An allocation with a region of its own. -/
def Alloc.Large (a : Alloc) : Prop := IsLarge (pageOf k) (calcAllocSize a.n)

instance (a : Alloc) : Decidable (a.Large k) :=
  inferInstanceAs (Decidable (IsLarge _ _))

/-- The chunk of an allocation. A large one has its region behind the
header. -/
def Alloc.chunk (a : Alloc) : Span :=
  (a.p.toNat, if a.Large k then
    (largeSize (pageOf k) (calcAllocSize a.n)).toNat - 32
  else (calcAllocSize a.n).toNat)

/-- Where the tag of a small one is. -/
def Alloc.tag (a : Alloc) : Addr := a.p + calcAllocSize a.n - 4

/-- The region of a large one. -/
def Alloc.region (a : Alloc) : Region :=
  ⟨a.p - sizeofPageHeader, largeSize (pageOf k) (calcAllocSize a.n)⟩

theorem Alloc.chunk_small {a : Alloc} (ha : ¬ a.Large k) :
    a.chunk k = (a.p.toNat, (calcAllocSize a.n).toNat) := by
  unfold chunk
  rw [if_neg ha]

theorem Alloc.chunk_large {a : Alloc} (ha : a.Large k) :
    a.chunk k = (a.p.toNat,
      (largeSize (pageOf k) (calcAllocSize a.n)).toNat - 32) := by
  unfold chunk
  rw [if_pos ha]

/-- What is known of an allocation beside its place. -/
structure Alloc.Ok (mapped : List Region) (a : Alloc) : Prop where
  bound : a.n.toNat + 11 < 2 ^ 64
  small : ¬ a.Large k → 16 ≤ (calcAllocSize a.n).toNat
  large : a.Large k → (calcAllocSize a.n).toNat + 31 + 2 ^ k < 2 ^ 64
    ∧ 32 ≤ a.p.toNat ∧ a.region k ∈ mapped

/-- All chunks. -/
def pieces (live : List Alloc) (free : List Chunk) (held : List Span) :
    List Span :=
  held ++ (live.map (Alloc.chunk k) ++ free.map Chunk.span)

/-- The heap in numbers. -/
structure Layout (h : Heap) (os : Os) (live : List Alloc)
    (free : List Chunk) (held : List Span) : Prop where
  shift : PageShift k
  pageSize : h.pageSize = pageOf k
  pfnMask : h.pfnMask = ~~~((1#64 <<< k) - 1)
  chunkSize : h.chunkSize.toNat % 2 ^ k = 0
  osPage : os.pageSize = pageOf k
  taken : os.taken = (h.addr.toNat, sizeofHeap)
  space : h.addr.toNat + sizeofHeap < 2 ^ 64
  regions : ∀ r ∈ os.mapped, r.base.toNat % 2 ^ k = 0
    ∧ 32 < r.size.toNat ∧ r.base.toNat + r.size.toNat ≤ 2 ^ 63
    ∧ Apart r.span os.taken
  tiling : Tiling 32 8 (os.mapped.map Region.span) (pieces k live free held)
  freeSize : ∀ c ∈ free, 24 ≤ c.size.toNat
  allocs : ∀ a ∈ live, a.Ok k os.mapped

/-- The bytes beside the free list. -/
structure Marks (h : Heap) (mapped : List Region) (m : ByteMem)
    (live : List Alloc) (free : List Chunk) : Prop where
  sizes : ∀ c ∈ free, m.load64 c.addr = c.size
  tags : ∀ a ∈ live, ¬ a.Large k → m.load32 a.tag &&& tagMask
    = (calcAllocSize a.n).setWidth 32 ||| thisAllocatedBit
  pages : ∃ l : List Addr, l.Perm (mapped.map Region.base)
    ∧ DList.Linked pageLinks m (h.pageHead :: (l ++ [h.pageTail]))

/-- The free list, its ends included. -/
def freeNodes (h : Heap) (free : List Chunk) : List Addr :=
  h.freeHead :: (free.map Chunk.addr ++ [h.freeTail])

/-- A heap with its chunks. -/
structure Inv (s : Sys) (live : List Alloc) (free : List Chunk)
    (held : List Span) : Prop where
  layout : Layout k s.heap s.os live free held
  marks : Marks k s.heap s.os.mapped s.mem live free
  list : DList.Linked freeLinks s.mem (freeNodes s.heap free)

end

-- =========================================================== where it is

section
variable {k : Nat} {h : Heap} {os : Os} {live : List Alloc}
  {free : List Chunk} {held : List Span}

/-- A free list with a chunk more. -/
theorem mem_insert {l₁ l₂ : List Chunk} {c d : Chunk} :
    d ∈ l₁ ++ c :: l₂ ↔ d = c ∨ d ∈ l₁ ++ l₂ := by
  rw [List.perm_middle.mem_iff, List.mem_cons]

theorem mem_pieces {q : Span} : q ∈ pieces k live free held ↔
    q ∈ held ∨ (∃ a ∈ live, a.chunk k = q) ∨ ∃ c ∈ free, c.span = q := by
  unfold pieces
  rw [List.mem_append, List.mem_append, List.mem_map, List.mem_map]

/-- Where the ends of the lists are. -/
theorem Layout.ends (hl : Layout k h os live free held) :
    h.freeHead.toNat = h.addr.toNat + 24 ∧ h.freeTail.toNat = h.addr.toNat + 48
      ∧ h.pageHead.toNat = h.addr.toNat + 72
      ∧ h.pageTail.toNat = h.addr.toNat + 96 := by
  have hspace := hl.space
  have h24 : (24 : Addr).toNat = 24 := rfl
  have h48 : (48 : Addr).toNat = 48 := rfl
  have h72 : (72 : Addr).toNat = 72 := rfl
  have h96 : (96 : Addr).toNat = 96 := rfl
  unfold sizeofHeap at hspace
  unfold Heap.freeHead Heap.freeTail Heap.pageHead Heap.pageTail
  rw [BitVec.toNat_add, BitVec.toNat_add, BitVec.toNat_add, BitVec.toNat_add,
    h24, h48, h72, h96]
  omega

/-- A piece lies in a region, behind the header. -/
theorem Layout.region (hl : Layout k h os live free held) {q : Span}
    (hq : q ∈ pieces k live free held) :
    ∃ r ∈ os.mapped, Inside 32 r.span q := by
  obtain ⟨s, hs, hin⟩ := hl.tiling.inside q hq
  obtain ⟨r, hr, rfl⟩ := List.mem_map.mp hs
  exact ⟨r, hr, hin⟩

/-- A piece in numbers. -/
theorem Layout.piece_bounds (hl : Layout k h os live free held) {q : Span}
    (hq : q ∈ pieces k live free held) :
    32 ≤ q.1 ∧ q.1 + q.2 ≤ 2 ^ 63 ∧ 0 < q.2 ∧ q.1 % 8 = 0 ∧ q.2 % 8 = 0 := by
  obtain ⟨r, hr, hlo, hhi⟩ := hl.region hq
  have hr' := (hl.regions r hr).2.2.1
  obtain ⟨hpos, hx, hs⟩ := hl.tiling.aligned q hq
  unfold Region.span at hlo hhi
  simp only at hlo hhi
  exact ⟨by omega, by omega, hpos, hx, hs⟩

/-- The heap's struct and the page headers lie apart from what is in a
region behind its header. -/
theorem Layout.inside_apart (hl : Layout k h os live free held) {r : Region}
    (hr : r ∈ os.mapped) {q : Span} (hin : Inside 32 r.span q) :
    Apart (h.addr.toNat, 120) q
      ∧ ∀ r' ∈ os.mapped, Apart (r'.base.toNat, 32) q := by
  obtain ⟨hlo, hhi⟩ := hin
  constructor
  · have hapart := (hl.regions r hr).2.2.2
    rw [hl.taken] at hapart
    unfold Apart Region.span sizeofHeap at *
    simp only at *
    omega
  · intro r' hr'
    have hsize := (hl.regions r' hr').2.1
    by_cases hsame : r.span = r'.span
    · left
      rw [hsame] at hlo
      exact hlo
    · have hapart : Apart r.span r'.span := by
        by_contra hno
        exact hsame (eq_of_pairwise_apart hl.tiling.regionsApart
          (List.mem_map_of_mem hr) (List.mem_map_of_mem hr') hno)
      unfold Apart Region.span at *
      simp only at *
      omega

/-- So they do from every piece. -/
theorem Layout.apart_taken (hl : Layout k h os live free held) {q : Span}
    (hq : q ∈ pieces k live free held) :
    Apart (h.addr.toNat, 120) q := by
  obtain ⟨r, hr, hin⟩ := hl.region hq
  exact (hl.inside_apart hr hin).1

theorem Layout.apart_header (hl : Layout k h os live free held) {q : Span}
    (hq : q ∈ pieces k live free held) {r : Region} (hr : r ∈ os.mapped) :
    Apart (r.base.toNat, 32) q := by
  obtain ⟨r', hr', hin⟩ := hl.region hq
  exact (hl.inside_apart hr' hin).2 r hr

/-- Different pieces lie apart. -/
theorem Layout.apart (hl : Layout k h os live free held) {q q' : Span}
    (hq : q ∈ pieces k live free held) (hq' : q' ∈ pieces k live free held)
    (hne : q ≠ q') : Apart q q' := by
  by_contra hno
  exact hne (eq_of_pairwise_apart hl.tiling.apart hq hq' hno)

/-- Pieces of different holders lie apart. -/
theorem Layout.held_live (hl : Layout k h os live free held) {q : Span}
    (hq : q ∈ held) {a : Alloc} (ha : a ∈ live) : Apart q (a.chunk k) :=
  (List.pairwise_append.mp hl.tiling.apart).2.2 q hq _
    (List.mem_append_left _ (List.mem_map_of_mem ha))

theorem Layout.held_free (hl : Layout k h os live free held) {q : Span}
    (hq : q ∈ held) {c : Chunk} (hc : c ∈ free) : Apart q c.span :=
  (List.pairwise_append.mp hl.tiling.apart).2.2 q hq _
    (List.mem_append_right _ (List.mem_map_of_mem hc))

theorem Layout.live_free (hl : Layout k h os live free held) {a : Alloc}
    (ha : a ∈ live) {c : Chunk} (hc : c ∈ free) :
    Apart (a.chunk k) c.span :=
  (List.pairwise_append.mp (List.pairwise_append.mp hl.tiling.apart).2.1).2.2
    _ (List.mem_map_of_mem ha) _ (List.mem_map_of_mem hc)

/-- An allocation's data ends before the last four bytes of its
chunk. -/
theorem Alloc.Ok.payload_lt {a : Alloc} {mapped : List Region}
    (hk : PageShift k) (ha : a.Ok k mapped) :
    a.n.toNat + 4 ≤ (a.chunk k).2 := by
  obtain ⟨hn, _⟩ := calcAllocSize_bounds ha.bound
  unfold chunk
  by_cases hlarge : a.Large k
  · rw [if_pos hlarge]
    have hsize := (largeSize_bounds hk (ha.large hlarge).1).1
    omega
  · rw [if_neg hlarge]
    exact hn

theorem Layout.chunk_mem {a : Alloc} (ha : a ∈ live) :
    a.chunk k ∈ pieces k live free held :=
  mem_pieces.mpr (.inr (.inl ⟨a, ha, rfl⟩))

theorem Layout.free_mem {c : Chunk} (hc : c ∈ free) :
    c.span ∈ pieces k live free held :=
  mem_pieces.mpr (.inr (.inr ⟨c, hc, rfl⟩))

theorem Layout.held_mem {q : Span} (hq : q ∈ held) :
    q ∈ pieces k live free held :=
  mem_pieces.mpr (.inl hq)

/-- The tag of a small allocation is the end of its chunk. -/
theorem Layout.tag_toNat (hl : Layout k h os live free held) {a : Alloc}
    (ha : a ∈ live) (hsmall : ¬ a.Large k) :
    a.tag.toNat + 4 = (a.chunk k).1 + (a.chunk k).2
      ∧ 16 ≤ (a.chunk k).2 := by
  obtain ⟨_, hhi, _⟩ := hl.piece_bounds (Layout.chunk_mem ha)
  have h16 := (hl.allocs a ha).small hsmall
  have h4 : (4 : Addr).toNat = 4 := rfl
  unfold Alloc.chunk at *
  unfold Alloc.tag
  rw [if_neg hsmall] at *
  simp only at *
  rw [BitVec.toNat_sub, BitVec.toNat_add, h4]
  omega

end

-- ================================================================ frames

/-- A change that stays within the links of the free list and what is
held. -/
def OffLinks (h : Heap) (free : List Chunk) (held : List Span)
    (m m' : ByteMem) : Prop :=
  ∀ s : Span, Apart s (freeSpan h.freeHead) → Apart s (freeSpan h.freeTail) →
    (∀ c ∈ free, Apart s (freeSpan c.addr)) → (∀ q ∈ held, Apart s q) →
    Agree s m m'

section
variable {k : Nat} {h : Heap} {os : Os} {live : List Alloc}
  {free : List Chunk} {held : List Span} {m m' m'' : ByteMem}

theorem OffLinks.refl (m : ByteMem) : OffLinks h free held m m :=
  fun s _ _ _ _ => Agree.refl s m

theorem OffLinks.trans (h₁ : OffLinks h free held m m')
    (h₂ : OffLinks h free held m' m'') : OffLinks h free held m m'' :=
  fun s hh ht hf hq => (h₁ s hh ht hf hq).trans (h₂ s hh ht hf hq)

/-- A change may be counted to more: a link of the list, too, to what is
held. -/
theorem OffLinks.mono {free' : List Chunk} {held' : List Span}
    (hout : OffLinks h free held m m')
    (hfree : ∀ c ∈ free, c ∈ free' ∨ ∃ q ∈ held',
      q.1 ≤ c.addr.toNat ∧ c.addr.toNat + 24 ≤ q.1 + q.2)
    (hheld : ∀ q ∈ held, ∃ q' ∈ held',
      q'.1 ≤ q.1 ∧ q.1 + q.2 ≤ q'.1 + q'.2) :
    OffLinks h free' held' m m' := by
  intro s hhead htail hf hq
  refine hout s hhead htail ?_ ?_
  · intro c hc
    rcases hfree c hc with hin | ⟨q, hmem, hlo, hhi⟩
    · exact hf c hin
    · have hs := hq q hmem
      unfold Apart at *
      rw [freeSpan_eq]
      simp only
      omega
  · intro q hmem
    obtain ⟨q', hmem', hlo, hhi⟩ := hheld q hmem
    have hs := hq q' hmem'
    unfold Apart at *
    omega

/-- The links of a chunk are in it. -/
theorem OffLinks.chunk {q : Span} {a : Addr}
    (hout : OffLinks h free [freeSpan a] m m') (hlo : q.1 ≤ a.toNat)
    (hhi : a.toNat + 24 ≤ q.1 + q.2) : OffLinks h free [q] m m' := by
  refine hout.mono (fun c hc => .inl hc) fun x hx => ?_
  rw [List.mem_singleton.mp hx, freeSpan_eq]
  exact ⟨q, List.mem_cons_self, by simp only; omega, by simp only; omega⟩

/-- A span in a piece is off the ends of the free list. -/
theorem Layout.off_ends (hl : Layout k h os live free held) {q s : Span}
    (hq : q ∈ pieces k live free held) (hlo : q.1 ≤ s.1)
    (hhi : s.1 + s.2 ≤ q.1 + q.2) :
    Apart s (freeSpan h.freeHead) ∧ Apart s (freeSpan h.freeTail) := by
  obtain ⟨hhead, htail, _, _⟩ := hl.ends
  have htaken := hl.apart_taken hq
  unfold Apart at htaken
  simp only at htaken
  unfold Apart
  rw [freeSpan_eq, freeSpan_eq, hhead, htail]
  simp only
  omega

/-- The links of a free chunk lie in it. -/
theorem Layout.links_apart (hl : Layout k h os live free held) {c : Chunk}
    (hc : c ∈ free) {s : Span} (hs : Apart s c.span) :
    Apart s (freeSpan c.addr) := by
  have hsize := hl.freeSize c hc
  unfold Apart Chunk.span at hs
  unfold Apart
  rw [freeSpan_eq]
  simp only at *
  omega

/-- A span in a chunk of an allocation is off the links and what is
held. -/
theorem Layout.off_live (hl : Layout k h os live free held) {a : Alloc}
    (ha : a ∈ live) {s : Span} (hlo : (a.chunk k).1 ≤ s.1)
    (hhi : s.1 + s.2 ≤ (a.chunk k).1 + (a.chunk k).2)
    (hout : OffLinks h free held m m') : Agree s m m' := by
  obtain ⟨hhead, htail⟩ := hl.off_ends (Layout.chunk_mem ha) hlo hhi
  refine hout s hhead htail ?_ ?_
  · intro c hc
    apply hl.links_apart hc
    have hapart := hl.live_free ha hc
    unfold Apart at *
    omega
  · intro q hq
    have hapart := hl.held_live hq ha
    unfold Apart at *
    omega

/-- The size in a free chunk is off the links, too. -/
theorem Layout.off_size (hl : Layout k h os live free held) {c : Chunk}
    (hc : c ∈ free) (hout : OffLinks h free held m m') :
    Agree (span64 c.addr) m m' := by
  have hsize := hl.freeSize c hc
  obtain ⟨hhead, htail⟩ := hl.off_ends (s := span64 c.addr)
    (Layout.free_mem hc) (Nat.le_refl _) (by
      unfold Chunk.span span64
      simp only
      omega)
  refine hout _ hhead htail ?_ ?_
  · intro c' hc'
    by_cases hsame : c'.span = c.span
    · -- its own links are behind its size
      have haddr : c'.addr.toNat = c.addr.toNat := congrArg Prod.fst hsame
      left
      rw [freeSpan_eq]
      unfold span64
      simp only
      omega
    · apply hl.links_apart hc'
      have hapart := hl.apart (Layout.free_mem hc') (Layout.free_mem hc) hsame
      unfold Apart Chunk.span span64 at *
      simp only at *
      omega
  · intro q hq
    have hapart := hl.held_free hq hc
    unfold Apart Chunk.span span64 at *
    simp only at *
    omega

/-- A page header is off them. -/
theorem Layout.off_header (hl : Layout k h os live free held) {r : Region}
    (hr : r ∈ os.mapped) (hout : OffLinks h free held m m') :
    Agree (r.base.toNat, 32) m m' := by
  obtain ⟨hhead, htail, _, _⟩ := hl.ends
  have htaken := (hl.regions r hr).2.2.2
  have hsize := (hl.regions r hr).2.1
  rw [hl.taken] at htaken
  unfold Apart Region.span sizeofHeap at htaken
  simp only at htaken
  refine hout _ ?_ ?_ ?_ ?_
  · unfold Apart
    rw [freeSpan_eq, hhead]
    simp only
    omega
  · unfold Apart
    rw [freeSpan_eq, htail]
    simp only
    omega
  · intro c hc
    exact hl.links_apart hc (hl.apart_header (Layout.free_mem hc) hr)
  · intro q hq
    exact hl.apart_header (Layout.held_mem hq) hr

/-- The ends of the list of pages are off them. -/
theorem Layout.off_pageEnds (hl : Layout k h os live free held)
    (hout : OffLinks h free held m m') :
    Agree (h.addr.toNat + 72, 48) m m' := by
  obtain ⟨hhead, htail, _, _⟩ := hl.ends
  have hall : ∀ q ∈ pieces k live free held,
      Apart (h.addr.toNat + 72, 48) q := by
    intro q hq
    have htaken := hl.apart_taken hq
    unfold Apart at *
    simp only at *
    omega
  refine hout _ ?_ ?_ ?_ ?_
  · right
    rw [freeSpan_eq, hhead]
    simp only
    omega
  · right
    rw [freeSpan_eq, htail]
    exact Nat.le_refl _
  · intro c hc
    exact hl.links_apart hc (hall _ (Layout.free_mem hc))
  · intro q hq
    exact hall q (Layout.held_mem hq)

/-- The list of pages survives where the headers and its ends do. -/
theorem Layout.pages_congr (hl : Layout k h os live free held)
    {l : List Addr} (hperm : l.Perm (os.mapped.map Region.base))
    (hlist : DList.Linked pageLinks m (h.pageHead :: (l ++ [h.pageTail])))
    (hheader : ∀ r ∈ os.mapped, Agree (r.base.toNat, 32) m m')
    (hends : Agree (h.addr.toNat + 72, 48) m m') :
    DList.Linked pageLinks m' (h.pageHead :: (l ++ [h.pageTail])) := by
  obtain ⟨_, _, hhead, htail⟩ := hl.ends
  refine hlist.congr fun a ha => ?_
  rcases List.mem_cons.mp ha with rfl | ha
  · refine hends.mono ?_ ?_
    · exact Nat.le_of_eq hhead.symm
    · show h.pageHead.toNat + 0 + 16 ≤ _
      omega
  · rcases List.mem_append.mp ha with ha | ha
    · obtain ⟨r, hr, rfl⟩ := List.mem_map.mp (hperm.mem_iff.mp ha)
      exact (hheader r hr).mono (Nat.le_refl _) (by
        show r.base.toNat + 0 + 16 ≤ r.base.toNat + 32
        omega)
    · rw [List.mem_singleton.mp ha]
      refine hends.mono ?_ ?_
      · show h.addr.toNat + 72 ≤ h.pageTail.toNat + 0
        omega
      · show h.pageTail.toNat + 0 + 16 ≤ h.addr.toNat + 72 + 48
        omega

/-- The marks survive a change off the links. -/
theorem Marks.frame (hm : Marks k h os.mapped m live free)
    (hl : Layout k h os live free held) (hout : OffLinks h free held m m') :
    Marks k h os.mapped m' live free := by
  refine ⟨?_, ?_, ?_⟩
  · intro c hc
    rw [(hl.off_size hc hout).load64]
    exact hm.sizes c hc
  · intro a ha hsmall
    obtain ⟨htag, h16⟩ := hl.tag_toNat ha hsmall
    have hagree : Agree (span32 a.tag) m m' := by
      apply hl.off_live ha ?_ ?_ hout
      · unfold span32
        simp only
        omega
      · exact Nat.le_of_eq htag
    rw [hagree.load32]
    exact hm.tags a ha hsmall
  · obtain ⟨l, hperm, hlist⟩ := hm.pages
    exact ⟨l, hperm, hl.pages_congr hperm hlist
      (fun r hr => hl.off_header hr hout) (hl.off_pageEnds hout)⟩

/-- So does what the program keeps. -/
theorem OffLinks.payload (hout : OffLinks h free held m m')
    (hl : Layout k h os live free held) :
    ∀ a ∈ live, Agree a.payload m m' := by
  intro a ha
  have hlt := (hl.allocs a ha).payload_lt hl.shift
  refine hl.off_live ha (Nat.le_refl _) ?_ hout
  show a.p.toNat + a.n.toNat ≤ a.p.toNat + (a.chunk k).2
  omega

end

end UdeBench.Npr.FirstFit
