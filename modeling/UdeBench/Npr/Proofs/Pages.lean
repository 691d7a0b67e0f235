/-
The list of pages, as long as nothing else writes to it.

What the chunks of a heap come to does not matter here: a mapped region
is a large one, with the size of its mapping in its header, or a small
one, and the small ones have doubled in size from one to the next.
`Pages` is that, for the memory, the list and the system; it is kept by
the calls that map and unmap (`allocLarge_ok`, `newPage_ok`,
`freeLarge_ok`) and by whatever leaves the headers alone (`kept`).

`npr_heap_fini` then walks all of the regions (`heapFini_ok`).
-/
import UdeBench.Npr.HeapFini
import UdeBench.Npr.Proofs.HeapAlloc

namespace UdeBench.Npr.FirstFit

open Spans ByteMem

/-- Small regions, the last one first: each has twice the pages of the
one before, and the first has one. -/
def Doubled (k : Nat) : List Region → Prop
  | [] => True
  | r :: rs => r.size.toNat = 2 ^ (k + rs.length) ∧ Doubled k rs

/-- The page headers and the ends of the list of pages are left alone. -/
def HeadersKept (h : Heap) (os : Os) (m m' : ByteMem) : Prop :=
  Agree (h.addr.toNat + 72, 48) m m'
    ∧ ∀ r ∈ os.mapped, Agree (r.base.toNat, 24) m m'

/-- The mapped regions, large and small. -/
structure Pages (k : Nat) (s : Sys) (large small : List Region) : Prop where
  layout : Layout k s.heap s.os [] [] []
  list : ∃ l : List Addr, l.Perm (s.os.mapped.map Region.base)
    ∧ DList.Linked pageLinks s.mem
      (s.heap.pageHead :: (l ++ [s.heap.pageTail]))
  mapped : s.os.mapped.Perm (large ++ small)
  headers : ∀ r ∈ large, s.mem.load32 (r.base + 16) = nprLargeChunk
    ∧ s.mem.load32 (r.base + 20) = r.size.setWidth 32
  plain : ∀ r ∈ small, s.mem.load32 (r.base + 16) = 0
  doubled : Doubled k small
  chunkSize : s.heap.chunkSize = 1#32 <<< (k + small.length)

section
variable {k : Nat} {s : Sys} {h : Heap} {os : Os} {large small : List Region}
  {m m' : ByteMem} {r : Region} {place : Placement}

-- =============================================================== headers

theorem Layout.regionsApart (hl : Layout k h os [] [] []) :
    (os.mapped.map Region.span).Pairwise Apart := hl.tiling.regionsApart

/-- Two mapped regions are one, or lie apart. -/
theorem Layout.base_or_apart (hl : Layout k h os [] [] []) {r' : Region}
    (hr : r ∈ os.mapped) (hr' : r' ∈ os.mapped) :
    r'.base.toNat = r.base.toNat ∨ Apart r'.span r.span := by
  by_cases hsame : r'.span = r.span
  · exact .inl (congrArg Prod.fst hsame)
  · right
    by_contra hno
    exact hsame (eq_of_pairwise_apart hl.regionsApart
      (List.mem_map_of_mem hr') (List.mem_map_of_mem hr) hno)

/-- The words of a header, as addresses. -/
theorem Layout.header_toNat (hl : Layout k h os [] [] [])
    (hr : r ∈ os.mapped) :
    (r.base + 16).toNat = r.base.toNat + 16
      ∧ (r.base + 20).toNat = r.base.toNat + 20 := by
  obtain ⟨_, h32, htop, _⟩ := hl.regions r hr
  have h16 : (16 : Addr).toNat = 16 := rfl
  have h20 : (20 : Addr).toNat = 20 := rfl
  rw [BitVec.toNat_add, BitVec.toNat_add, h16, h20]
  omega

/-- They are read alike where the second half of a header is the same. -/
theorem Layout.header_agree (hl : Layout k h os [] [] [])
    (hr : r ∈ os.mapped) (hagree : Agree (r.base.toNat + 16, 8) m m') :
    m'.load32 (r.base + 16) = m.load32 (r.base + 16)
      ∧ m'.load32 (r.base + 20) = m.load32 (r.base + 20) := by
  obtain ⟨hflags, hsize⟩ := hl.header_toNat hr
  constructor
  · apply Agree.load32
    refine hagree.mono ?_ ?_
    all_goals unfold span32; simp only; omega
  · apply Agree.load32
    refine hagree.mono ?_ ?_
    all_goals unfold span32; simp only; omega

theorem Pages.large_mem (hp : Pages k s large small) (hr : r ∈ large) :
    r ∈ s.os.mapped :=
  hp.mapped.mem_iff.mpr (List.mem_append_left _ hr)

theorem Pages.small_mem (hp : Pages k s large small) (hr : r ∈ small) :
    r ∈ s.os.mapped :=
  hp.mapped.mem_iff.mpr (List.mem_append_right _ hr)

/-- Headers that are read alike say the same. -/
theorem Pages.headers_congr (hp : Pages k s large small)
    (hagree : ∀ r ∈ s.os.mapped,
      Agree (r.base.toNat + 16, 8) s.mem m) :
    (∀ r ∈ large, m.load32 (r.base + 16) = nprLargeChunk
        ∧ m.load32 (r.base + 20) = r.size.setWidth 32)
      ∧ ∀ r ∈ small, m.load32 (r.base + 16) = 0 := by
  constructor
  · intro r hr
    have hmem := hp.large_mem hr
    obtain ⟨hflags, hsize⟩ := hp.layout.header_agree hmem (hagree r hmem)
    rw [hflags, hsize]
    exact hp.headers r hr
  · intro r hr
    have hmem := hp.small_mem hr
    rw [(hp.layout.header_agree hmem (hagree r hmem)).1]
    exact hp.plain r hr

/-- The second half of a header is apart from all links. -/
theorem Layout.header_off (hl : Layout k h os [] [] []) {l : List Addr}
    (hperm : l.Perm (os.mapped.map Region.base)) (hr : r ∈ os.mapped) :
    ∀ b ∈ h.pageHead :: (l ++ [h.pageTail]),
      Apart (r.base.toNat + 16, 8) (DList.span pageLinks b) := by
  obtain ⟨_, _, hhead, htail⟩ := hl.ends
  obtain ⟨_, hsize, _, htaken⟩ := hl.regions r hr
  rw [hl.taken] at htaken
  unfold sizeofHeap at htaken
  intro b hb
  show Apart _ (b.toNat, 16)
  rcases List.mem_cons.mp hb with rfl | hb
  · unfold Apart Region.span at *
    simp only at *
    omega
  · rcases List.mem_append.mp hb with hb | hb
    · obtain ⟨r', hr', rfl⟩ := List.mem_map.mp (hperm.mem_iff.mp hb)
      have hsize' := (hl.regions r' hr').2.1
      rcases hl.base_or_apart hr hr' with hbase | hapart
      · right
        simp only
        omega
      · unfold Apart Region.span at *
        simp only at *
        omega
    · rw [List.mem_singleton.mp hb]
      unfold Apart Region.span at *
      simp only at *
      omega

/-- The links of the list are in the headers and at its ends. -/
theorem Layout.pageNode_kept (hl : Layout k h os [] [] [])
    (hkept : HeadersKept h os m m') {l : List Addr}
    (hperm : l.Perm (os.mapped.map Region.base)) :
    ∀ b ∈ h.pageHead :: (l ++ [h.pageTail]),
      Agree (DList.span pageLinks b) m m' := by
  obtain ⟨_, _, hhead, htail⟩ := hl.ends
  obtain ⟨hends, hheaders⟩ := hkept
  intro b hb
  show Agree (b.toNat, 16) m m'
  rcases List.mem_cons.mp hb with rfl | hb
  · refine hends.mono ?_ ?_
    all_goals simp only; omega
  · rcases List.mem_append.mp hb with hb | hb
    · obtain ⟨r, hr, rfl⟩ := List.mem_map.mp (hperm.mem_iff.mp hb)
      refine (hheaders r hr).mono ?_ ?_
      all_goals simp only; omega
    · rw [List.mem_singleton.mp hb]
      refine hends.mono ?_ ?_
      all_goals simp only; omega

/-- What leaves the headers alone leaves the pages alone. -/
theorem Pages.kept (hp : Pages k s large small)
    (hkept : HeadersKept s.heap s.os s.mem m) :
    Pages k { s with mem := m } large small := by
  obtain ⟨l, hperm, hlist⟩ := hp.list
  obtain ⟨hlarge, hsmall⟩ := hp.headers_congr (m := m) fun r hr =>
    (hkept.2 r hr).mono (by simp only; omega) (by simp only; omega)
  exact ⟨hp.layout, ⟨l, hperm, hlist.congr
    (hp.layout.pageNode_kept hkept hperm)⟩, hp.mapped, hlarge, hsmall,
    hp.doubled, hp.chunkSize⟩

-- =================================================================== map

/-- The numbers with a fresh region more. -/
theorem Layout.addRegion (hl : Layout k h os [] [] []) (hfresh : Fresh os r)
    (hmod : r.size.toNat % 2 ^ k = 0) (calls : Nat) :
    2 ^ k ≤ r.size.toNat ∧ Layout k h { os with
      mapped := r :: os.mapped, calls := calls } [] [] [] := by
  obtain ⟨hpos, hbase, htop, htaken, hothers⟩ := hfresh
  rw [hl.osPage, toNat_pageOf hl.shift] at hbase
  have hpage := page_bounds hl.shift
  have hlarge : 2 ^ k ≤ r.size.toNat :=
    Nat.le_of_dvd hpos (Nat.dvd_of_mod_eq_zero hmod)
  refine ⟨hlarge, { hl with regions := ?_, tiling := ?_, allocs := ?_ }⟩
  · intro r' hr'
    rcases List.mem_cons.mp hr' with rfl | hr'
    · exact ⟨hbase, by omega, htop, htaken⟩
    · exact hl.regions r' hr'
  · refine ⟨?_, List.Pairwise.nil, fun q hq => (nomatch hq),
      fun q hq => (nomatch hq)⟩
    rw [List.map_cons]
    refine List.pairwise_cons.mpr ⟨?_, hl.regionsApart⟩
    intro q hq
    obtain ⟨r', hr', rfl⟩ := List.mem_map.mp hq
    exact hothers r' hr'
  · exact fun a ha => nomatch ha

/-- A fresh region with its header, in the list of pages. -/
theorem Pages.map (hp : Pages k s large small) (hfresh : Fresh s.os r)
    (hmod : r.size.toNat % 2 ^ k = 0) (hw : Within [r.span] s.mem m) :
    Layout k s.heap { s.os with mapped := r :: s.os.mapped
                                calls := s.os.calls + 1 } [] [] []
      ∧ (∃ l : List Addr, l.Perm ((r :: s.os.mapped).map Region.base)
        ∧ DList.Linked pageLinks (addPage s.heap m r.base)
          (s.heap.pageHead :: (l ++ [s.heap.pageTail])))
      ∧ (∀ r' ∈ s.os.mapped, Agree (r'.base.toNat + 16, 8) s.mem
        (addPage s.heap m r.base))
      ∧ Agree (r.base.toNat + 16, 8) m (addPage s.heap m r.base) := by
  have hl := hp.layout
  obtain ⟨hpage, hl'⟩ := hl.addRegion hfresh hmod (s.os.calls + 1)
  have h256 := (page_bounds hl.shift).1
  obtain ⟨l, hperm, hlist⟩ := hp.list
  have hnode := hl.fresh_nodes hfresh hperm
  have hlist' : DList.Linked pageLinks m
      (s.heap.pageHead :: (l ++ [s.heap.pageTail])) :=
    hlist.congr fun b hb => hw _ fun x hx => by
      rw [List.mem_singleton.mp hx]
      exact hnode b hb
  obtain ⟨hlinked, hpush⟩ :=
    hl.addPage_ok hfresh (by omega) hperm hlist'
  -- the second half of a header is apart from the links
  have hoff : ∀ r' ∈ r :: s.os.mapped,
      ∀ b ∈ s.heap.pageHead :: (l ++ [s.heap.pageTail]),
        Apart (r'.base.toNat + 16, 8) (DList.span pageLinks b) := by
    intro r' hr' b hb
    rcases List.mem_cons.mp hr' with rfl | hr'
    · have hapart := hnode b hb
      unfold Apart Region.span at *
      simp only at *
      omega
    · exact hl.header_off hperm hr' b hb
  refine ⟨hl', ⟨r.base :: l, ?_, hlinked⟩, ?_, ?_⟩
  · rw [List.map_cons]
    exact hperm.cons _
  · intro r' hr'
    have hapart := hfresh.2.2.2.2 r' hr'
    have hsize := (hl.regions r' hr').2.1
    refine (hw _ fun x hx => ?_).trans
      (hpush _ (hoff r' (List.mem_cons_of_mem _ hr')) ?_)
    · rw [List.mem_singleton.mp hx]
      unfold Apart Region.span at *
      simp only at *
      omega
    · unfold Apart Region.span at *
      simp only at *
      omega
  · exact hpush _ (hoff r List.mem_cons_self) (.inr (Nat.le_refl _))

/-- A region that was mapped. -/
structure Mapped (s s' : Sys) (r : Region) : Prop where
  fresh : Fresh s.os r
  mapped : s'.os.mapped = r :: s.os.mapped

/-- The words of a header that was written, before and after the page
enters the list. -/
theorem fresh_header (hfresh : Fresh os r) (h32 : 32 ≤ r.size.toNat)
    (v w : Word) (m : ByteMem) :
    (m.store32 (r.base + 16) v).load32 (r.base + 16) = v
      ∧ ((m.store32 (r.base + 16) v).store32 (r.base + 20) w).load32
        (r.base + 16) = v := by
  have htop := hfresh.2.2.1
  have h16 : (16 : Addr).toNat = 16 := rfl
  have h20 : (20 : Addr).toNat = 20 := rfl
  refine ⟨load32_store32 _ _ _, ?_⟩
  rw [Agree.load32 (agree_store32 ?_ _ _)]
  · exact load32_store32 _ _ _
  · left
    unfold span32
    rw [BitVec.toNat_add, BitVec.toNat_add, h16, h20]
    simp only
    omega

/-- A region for a large allocation. -/
theorem Pages.allocLarge_ok (hp : Pages k s large small) (a : Size) :
    Yields (fun _ => True) (allocLarge place s a) fun x =>
      ∃ r, x.2 = r.base + sizeofPageHeader ∧ r.size = largeSize (pageOf k) a
        ∧ Mapped s x.1 r ∧ Pages k x.1 (r :: large) small := by
  have hl := hp.layout
  have hmod := largeSize_mod hl.shift a
  unfold allocLarge allocPage
  rw [hl.pageSize]
  by_cases hfresh : Fresh s.os ⟨place s.os.calls, largeSize (pageOf k) a⟩
  · simp only [if_pos hfresh]
    generalize hr : (⟨place s.os.calls, largeSize (pageOf k) a⟩ : Region) = r
      at *
    have hplace : place s.os.calls = r.base := congrArg Region.base hr
    have hsize : largeSize (pageOf k) a = r.size := congrArg Region.size hr
    rw [hsize] at hmod ⊢
    rw [hplace]
    obtain ⟨hpage, hl'⟩ := hl.addRegion hfresh hmod (s.os.calls + 1)
    have h256 := (page_bounds hl.shift).1
    obtain ⟨_, hw⟩ := header_agree (m := s.mem) hfresh
      (show 32 ≤ r.size.toNat by omega) nprLargeChunk (r.size.setWidth 32)
    obtain ⟨hl', hlist, hothers, hself⟩ := hp.map hfresh hmod hw
    have hr' : r ∈ r :: s.os.mapped := List.mem_cons_self
    obtain ⟨hlarge, hsmall⟩ := hp.headers_congr hothers
    obtain ⟨hflags, hword⟩ := hl'.header_agree hr' hself
    refine Yields.ok ⟨r, rfl, rfl, ⟨hfresh, rfl⟩, hl', hlist,
      hp.mapped.cons _, ?_, hsmall, hp.doubled, hp.chunkSize⟩
    intro r' hr'
    rcases List.mem_cons.mp hr' with rfl | hr'
    · rw [hflags, hword]
      exact ⟨(fresh_header hfresh (by omega) _ _ _).2, load32_store32 _ _ _⟩
    · exact hlarge r' hr'
  · simp only [if_neg hfresh]
    exact Yields.error trivial

/-- The first word behind a header is not in one. -/
theorem Layout.behind_header (hl : Layout k h os [] [] [])
    (hr : r ∈ os.mapped) (h40 : 40 ≤ r.size.toNat) (m : ByteMem)
    (v : BitVec 64) :
    HeadersKept h os m (m.store64 (r.base + sizeofPageHeader) v) := by
  obtain ⟨_, _, htop, htaken⟩ := hl.regions r hr
  have h32 : sizeofPageHeader.toNat = 32 := rfl
  have haddr : (r.base + sizeofPageHeader).toNat = r.base.toNat + 32 := by
    rw [BitVec.toNat_add, h32]
    omega
  rw [hl.taken] at htaken
  unfold sizeofHeap at htaken
  constructor
  · apply agree_store64
    unfold span64
    rw [haddr]
    unfold Apart Region.span at *
    simp only at *
    omega
  · intro r' hr'
    have hsize' := (hl.regions r' hr').2.1
    apply agree_store64
    unfold span64
    rw [haddr]
    rcases hl.base_or_apart hr hr' with hbase | hapart
    · left
      simp only
      omega
    · unfold Apart Region.span at *
      simp only at *
      omega

/-- A region for chunks. -/
theorem Pages.newPage_ok (hp : Pages k s large small) :
    Yields (fun _ => True) (newPage place s) fun x =>
      ∃ r, Mapped s x.1 r ∧ Pages k x.1 large (r :: small) := by
  have hl := hp.layout
  have hmod := signExtend_mod hl.shift hl.chunkSize
  unfold newPage allocPage
  by_cases hfresh : Fresh s.os
      ⟨place s.os.calls, s.heap.chunkSize.signExtend 64⟩
  · simp only [if_pos hfresh]
    generalize hr : (⟨place s.os.calls, s.heap.chunkSize.signExtend 64⟩
      : Region) = r at *
    have hplace : place s.os.calls = r.base := congrArg Region.base hr
    have hsize : s.heap.chunkSize.signExtend 64 = r.size :=
      congrArg Region.size hr
    rw [hsize] at hmod ⊢
    rw [hplace]
    obtain ⟨hpage, hl'⟩ := hl.addRegion hfresh hmod (s.os.calls + 1)
    have h256 := (page_bounds hl.shift).1
    obtain ⟨hw, _⟩ := header_agree (m := s.mem) hfresh
      (show 32 ≤ r.size.toNat by omega) 0 0
    obtain ⟨hl', hlist, hothers, hself⟩ := hp.map hfresh hmod hw
    have hr' : r ∈ r :: s.os.mapped := List.mem_cons_self
    obtain ⟨hlarge, hsmall⟩ := hp.headers_congr hothers
    obtain ⟨hflags, _⟩ := hl'.header_agree hr' hself
    -- the pages before the size of the chunk is written
    have hopened : Pages k ⟨addPage s.heap
        ((s.mem.zeroFill r.span).store32 (r.base + 16) 0) r.base,
        { s.os with mapped := r :: s.os.mapped, calls := s.os.calls + 1 },
        { s.heap with chunkSize := s.heap.chunkSize * 2 }⟩
        large (r :: small) := by
      refine ⟨{ hl' with chunkSize := double_mod hl.shift hl.chunkSize },
        hlist, ?_, hlarge, ?_, ⟨?_, hp.doubled⟩, ?_⟩
      · exact (hp.mapped.cons _).trans List.perm_middle.symm
      · intro r' hr'
        rcases List.mem_cons.mp hr' with rfl | hr'
        · rw [hflags]
          exact (fresh_header (w := 0) hfresh (by omega) _ _).1
        · exact hsmall r' hr'
      · have hpos := hfresh.1
        have htop := hfresh.2.2.1
        rw [← hsize, hp.chunkSize] at hpos htop ⊢
        rcases chunkSize_cases (k + small.length) with ⟨_, heq⟩ | hneg | hzero
        · exact heq
        · omega
        · omega
      · simp only [hp.chunkSize, List.length_cons, ← Nat.add_assoc,
          BitVec.shiftLeft_add _ (k + small.length) 1]
        rw [BitVec.shiftLeft_eq_mul_twoPow _ 1]
        rfl
    refine Yields.ok ⟨r, ⟨hfresh, rfl⟩, hopened.kept ?_⟩
    exact hopened.layout.behind_header hr' (by omega) _ _
  · simp only [if_neg hfresh]
    exact Yields.error trivial

-- ================================================================= unmap

/-- A large allocation given back. -/
theorem Pages.freeLarge_ok (hp : Pages k s large small) {a : Size}
    (hr : ⟨r.base, largeSize (pageOf k) a⟩ = r) (hlarge : r ∈ large) :
    (freeLarge s (r.base + sizeofPageHeader) a).os.mapped
        = s.os.mapped.erase r
      ∧ Pages k (freeLarge s (r.base + sizeofPageHeader) a) (large.erase r)
        small := by
  have hl := hp.layout
  have hmem := hp.large_mem hlarge
  have heq : freeLarge s (r.base + sizeofPageHeader) a
      = ⟨delPage s.mem r.base, { s.os with mapped := s.os.mapped.erase r },
        s.heap⟩ := by
    unfold freeLarge freePage
    simp only [hl.page_of hmem, hl.pageSize, BitVec.add_sub_cancel, hr]
  obtain ⟨l, hperm, hlist⟩ := hp.list
  obtain ⟨l', hperm', hlinked, hagree⟩ := delPage_ok hmem hperm hlist
  obtain ⟨hlarges, hsmall⟩ := hp.headers_congr fun r' hr' =>
    hagree _ (hl.header_off hperm hr')
  rw [heq]
  refine ⟨rfl, { hl with regions := ?_, tiling := ?_, allocs := ?_ },
    ⟨l', hperm', hlinked⟩, ?_, ?_, hsmall, hp.doubled, hp.chunkSize⟩
  · exact fun r' hr' => hl.regions r' (List.mem_of_mem_erase hr')
  · exact ⟨hl.regionsApart.sublist (List.erase_sublist.map _),
      List.Pairwise.nil, fun q hq => (nomatch hq), fun q hq => (nomatch hq)⟩
  · exact fun b hb => nomatch hb
  · rw [← List.erase_append_left small hlarge]
    exact hp.mapped.erase r
  · exact fun r' hr' => hlarges r' (List.mem_of_mem_erase hr')

-- ================================================================== fini

/-- What `npr_heap_fini` unmaps of a region. -/
def finiPart (s : Sys) (r : Region) : Option Region :=
  munmap r.base ((finiSize s.heap s.mem r.base).signExtend 64)

/-- The loop walks the list of pages. Induction on the list. -/
theorem finiFrom_linked :
    ∀ (l : List Addr) {fuel : Nat} {a : Addr},
      DList.Linked pageLinks m (a :: (l ++ [h.pageTail])) → l.length < fuel →
      finiFrom h m fuel (DList.next pageLinks m a)
        = .ok (l.filterMap fun ph =>
          munmap ph ((finiSize h m ph).signExtend 64)) := by
  intro l
  induction l with
  | nil =>
      intro fuel a hlist hfuel
      obtain ⟨fuel, rfl⟩ := Nat.exists_eq_succ_of_ne_zero
        (show fuel ≠ 0 by omega)
      have hnext : DList.next pageLinks m a = h.pageTail :=
        (List.isChain_cons_cons.mp hlist.links).1.1
      rw [hnext, finiFrom, if_pos rfl]
      rfl
  | cons b l ih =>
      intro fuel a hlist hfuel
      obtain ⟨fuel, rfl⟩ := Nat.exists_eq_succ_of_ne_zero
        (show fuel ≠ 0 by omega)
      rw [List.length_cons] at hfuel
      obtain ⟨hspread, hspace, hlinks⟩ := hlist
      obtain ⟨⟨hnext, _⟩, hlinks⟩ := List.isChain_cons_cons.mp hlinks
      have hspread := (List.pairwise_cons.mp hspread).2
      have hne : b ≠ h.pageTail := by
        rintro rfl
        have hapart : Apart (DList.span pageLinks h.pageTail)
            (DList.span pageLinks h.pageTail) :=
          (List.pairwise_cons.mp hspread).1 _ (by simp)
        exact DList.not_apart_self h.pageTail hapart
      have hrest : finiFrom h m fuel (DList.next pageLinks m b) = _ :=
        ih ⟨hspread, fun c hc => hspace c (List.mem_cons_of_mem _ hc),
          hlinks⟩ (by omega)
      rw [hnext, finiFrom, if_neg hne]
      simp only [hrest, List.filterMap_cons]
      cases munmap b ((finiSize h m b).signExtend 64) <;> rfl

/-- `npr_heap_fini` goes over all mapped regions, in some order. -/
theorem Pages.heapFini_ok (hp : Pages k s large small) {fuel : Nat}
    (hfuel : s.os.mapped.length < fuel) :
    ∃ rs : List Region, rs.Perm s.os.mapped
      ∧ heapFini fuel s = .ok (rs.filterMap (finiPart s)) := by
  obtain ⟨l, hperm, hlist⟩ := hp.list
  have hcomp := List.eq_map_comp_perm Region.base
  have hex : Relation.Comp (fun l rs => l = List.map Region.base rs)
      List.Perm l s.os.mapped := by
    rw [hcomp]
    exact hperm
  obtain ⟨rs, rfl, hrs⟩ := hex
  refine ⟨rs, hrs, ?_⟩
  unfold heapFini
  rw [finiFrom_linked _ hlist (by
    rw [List.length_map, hrs.length_eq]
    exact hfuel), List.filterMap_map]
  rfl

end

end UdeBench.Npr.FirstFit
