/-
Regions that come and go: what `alloc_page` with `add_page`, and
`del_page` with `free_page`, do to the heap of Chunks.

They change bytes of the page headers, of the ends of the list of pages
and of the region itself, none of which is in a chunk that somebody
holds (`Inv.elsewhere`).
-/
import UdeBench.Npr.Proofs.Moves

namespace UdeBench.Npr.FirstFit

open Spans ByteMem

section
variable {k : Nat} {h : Heap} {os : Os} {live : List Alloc}
  {free : List Chunk} {held held' : List Span} {m m' : ByteMem} {s s' : Sys}

/-- A change that leaves alone the chunks and the first half of the
heap's struct. -/
theorem Inv.elsewhere (hi : Inv k s live free held)
    (hl : Layout k s'.heap s'.os live free held')
    (haddr : s'.heap.addr = s.heap.addr)
    (hlive : ∀ a ∈ live, Agree (a.chunk k) s.mem s'.mem)
    (hfree : ∀ c ∈ free, Agree c.span s.mem s'.mem)
    (hstruct : Agree (s.heap.addr.toNat, 72) s.mem s'.mem)
    (hpages : ∃ l : List Addr, l.Perm (s'.os.mapped.map Region.base)
      ∧ DList.Linked pageLinks s'.mem
        (s'.heap.pageHead :: (l ++ [s'.heap.pageTail]))) :
    Inv k s' live free held' := by
  obtain ⟨hhead, htail, _, _⟩ := hi.layout.ends
  refine ⟨hl, ⟨?_, ?_, hpages⟩, ?_⟩
  · intro c hc
    have h24 := hl.freeSize c hc
    rw [Agree.load64 ((hfree c hc).mono (Nat.le_refl _) (by
      unfold span64 Chunk.span
      simp only
      omega))]
    exact hi.marks.sizes c hc
  · intro a ha hsmall
    obtain ⟨htag, h16⟩ := hl.tag_toNat ha hsmall
    have hword : Agree (span32 a.tag) s.mem s'.mem := by
      refine (hlive a ha).mono ?_ (Nat.le_of_eq htag)
      unfold span32
      simp only
      omega
    rw [hword.load32]
    exact hi.marks.tags a ha hsmall
  · have hnodes : freeNodes s'.heap free = freeNodes s.heap free := by
      unfold freeNodes Heap.freeHead Heap.freeTail
      rw [haddr]
    rw [hnodes]
    refine hi.list.congr fun b hb => ?_
    show Agree (freeSpan b) _ _
    rcases List.mem_cons.mp hb with rfl | hb
    · refine hstruct.mono ?_ ?_
      all_goals rw [freeSpan_eq, hhead]; simp only; omega
    · rcases List.mem_append.mp hb with hb | hb
      · obtain ⟨c, hc, rfl⟩ := List.mem_map.mp hb
        have h24 := hl.freeSize c hc
        refine (hfree c hc).mono ?_ ?_
        all_goals rw [freeSpan_eq]; unfold Chunk.span; simp only; omega
      · rw [List.mem_singleton.mp hb]
        refine hstruct.mono ?_ ?_
        all_goals rw [freeSpan_eq, htail]; simp only; omega

/-- What the program keeps is in the chunks. -/
theorem Layout.payload_agree (hl : Layout k h os live free held)
    (hq : ∀ q ∈ pieces k live free held, Agree q m m') :
    ∀ a ∈ live, Agree a.payload m m' := by
  intro a ha
  have hlt := (hl.allocs a ha).payload_lt hl.shift
  refine (hq _ (Layout.chunk_mem ha)).mono (Nat.le_refl _) ?_
  show a.p.toNat + a.n.toNat ≤ a.p.toNat + (a.chunk k).2
  omega

/-- The ends of the list of pages and the page headers lie apart from
the chunks and from the first half of the struct. -/
theorem Layout.pageNodes_apart (hl : Layout k h os live free held)
    {l : List Addr} (hperm : l.Perm (os.mapped.map Region.base)) :
    ∀ b ∈ h.pageHead :: (l ++ [h.pageTail]),
      Apart (h.addr.toNat, 72) (DList.span pageLinks b)
        ∧ ∀ q ∈ pieces k live free held,
          Apart q (DList.span pageLinks b) := by
  obtain ⟨_, _, hhead, htail⟩ := hl.ends
  have hspan : ∀ b, DList.span pageLinks b = (b.toNat, 16) := fun b => rfl
  have hends : ∀ b : Addr, h.addr.toNat + 72 ≤ b.toNat →
      b.toNat + 16 ≤ h.addr.toNat + 120 →
      Apart (h.addr.toNat, 72) (DList.span pageLinks b)
        ∧ ∀ q ∈ pieces k live free held,
          Apart q (DList.span pageLinks b) := by
    intro b hlo hhi
    rw [hspan]
    refine ⟨.inl hlo, fun q hq => ?_⟩
    have htaken := hl.apart_taken hq
    unfold Apart at *
    simp only at *
    omega
  intro b hb
  rcases List.mem_cons.mp hb with rfl | hb
  · exact hends _ (by omega) (by omega)
  · rcases List.mem_append.mp hb with hb | hb
    · obtain ⟨r, hr, rfl⟩ := List.mem_map.mp (hperm.mem_iff.mp hb)
      rw [hspan]
      obtain ⟨_, hsize, _, htaken⟩ := hl.regions r hr
      rw [hl.taken] at htaken
      constructor
      · unfold Apart Region.span sizeofHeap at *
        simp only at *
        omega
      · intro q hq
        have hheader := hl.apart_header hq hr
        unfold Apart at *
        simp only at *
        omega
    · rw [List.mem_singleton.mp hb]
      exact hends _ (by omega) (by omega)

/-- A fresh region lies apart from them. -/
theorem Layout.fresh_nodes {r : Region} {l : List Addr}
    (hl : Layout k h os live free held) (hfresh : Fresh os r)
    (hperm : l.Perm (os.mapped.map Region.base)) :
    ∀ b ∈ h.pageHead :: (l ++ [h.pageTail]),
      Apart (DList.span pageLinks b) r.span := by
  obtain ⟨_, _, _, htaken, hothers⟩ := hfresh
  obtain ⟨_, _, hhead, htail⟩ := hl.ends
  have hbelow : Apart (h.addr.toNat, 120) r.span := by
    rw [hl.taken] at htaken
    exact htaken.symm
  intro b hb
  show Apart (b.toNat, 16) r.span
  rcases List.mem_cons.mp hb with rfl | hb
  · unfold Apart at *
    simp only at *
    omega
  · rcases List.mem_append.mp hb with hb | hb
    · obtain ⟨r', hr', rfl⟩ := List.mem_map.mp (hperm.mem_iff.mp hb)
      have hapart := hothers r' hr'
      have hlarge' := (hl.regions r' hr').2.1
      unfold Apart Region.span at *
      simp only at *
      omega
    · rw [List.mem_singleton.mp hb]
      unfold Apart at *
      simp only at *
      omega

/-- `add_page`, of a fresh region. -/
theorem Layout.addPage_ok {r : Region} {l : List Addr}
    (hl : Layout k h os live free held) (hfresh : Fresh os r)
    (h16 : 16 ≤ r.size.toNat) (hperm : l.Perm (os.mapped.map Region.base))
    (hlist : DList.Linked pageLinks m (h.pageHead :: (l ++ [h.pageTail]))) :
    DList.Linked pageLinks (addPage h m r.base)
        (h.pageHead :: ((r.base :: l) ++ [h.pageTail]))
      ∧ ∀ t : Span, (∀ b ∈ h.pageHead :: (l ++ [h.pageTail]),
          Apart t (DList.span pageLinks b)) → Apart t (r.base.toNat, 16) →
        Agree t m (addPage h m r.base) := by
  have htop := hfresh.2.2.1
  have hnode := hl.fresh_nodes hfresh hperm
  refine hlist.pushFront (x := r.base) (by simp) ?_ ?_
  · show r.base.toNat + 0 + 16 < 2 ^ 64
    omega
  · intro b hb
    have hapart := hnode b hb
    have hself : DList.span pageLinks r.base = (r.base.toNat, 16) := rfl
    rw [hself]
    unfold Apart Region.span at *
    simp only at *
    omega

/-- `del_page`, of a mapped region. -/
theorem delPage_ok {r : Region} {l : List Addr} (hr : r ∈ os.mapped)
    (hperm : l.Perm (os.mapped.map Region.base))
    (hlist : DList.Linked pageLinks m (h.pageHead :: (l ++ [h.pageTail]))) :
    ∃ l' : List Addr, l'.Perm ((os.mapped.erase r).map Region.base)
      ∧ DList.Linked pageLinks (delPage m r.base)
        (h.pageHead :: (l' ++ [h.pageTail]))
      ∧ ∀ t : Span, (∀ b ∈ h.pageHead :: (l ++ [h.pageTail]),
          Apart t (DList.span pageLinks b)) →
        Agree t m (delPage m r.base) := by
  have hrest := List.perm_cons_erase hr
  obtain ⟨l₁, l₂, rfl⟩ := List.append_of_mem
    (hperm.mem_iff.mpr (List.mem_map_of_mem (f := Region.base) hr))
  have hlist' : DList.Linked pageLinks m
      ((h.pageHead :: l₁) ++ r.base :: (l₂ ++ [h.pageTail])) := by
    rw [List.append_assoc, ← List.cons_append] at hlist
    exact hlist
  obtain ⟨hlinked, hagree⟩ := hlist'.remove (List.cons_ne_nil _ _) (by simp)
  refine ⟨l₁ ++ l₂, ?_, ?_, fun t ht => hagree t fun b hb => ht b ?_⟩
  · have hperm' : (r.base :: (l₁ ++ l₂)).Perm
        (r.base :: (os.mapped.erase r).map Region.base) :=
      (List.perm_middle.symm.trans hperm).trans (hrest.map Region.base)
    exact hperm'.cons_inv
  · show DList.Linked pageLinks _
      (h.pageHead :: ((l₁ ++ l₂) ++ [h.pageTail]))
    rw [List.append_assoc]
    exact hlinked
  · simp only [List.mem_cons, List.mem_append] at hb ⊢
    tauto

/-- A new region: its header, in the list of pages, and one chunk in
hand. -/
theorem Inv.map {r : Region} (hi : Inv k s live free held)
    (hfresh : Fresh s.os r) (hsize : r.size.toNat % 2 ^ k = 0)
    (hw : Within [r.span] s.mem m) :
    Inv k ⟨addPage s.heap m r.base, { s.os with
        mapped := r :: s.os.mapped, calls := s.os.calls + 1 }, s.heap⟩
        live free ((r.base.toNat + 32, r.size.toNat - 32) :: held)
      ∧ ∀ q ∈ pieces k live free held,
        Agree q s.mem (addPage s.heap m r.base) := by
  have hl := hi.layout
  have hfresh' := hfresh
  obtain ⟨hpos, hbase, htop, htaken, hothers⟩ := hfresh
  rw [hl.osPage, toNat_pageOf hl.shift] at hbase
  obtain ⟨hpage, _, hpage8⟩ := page_bounds hl.shift
  have hlarge : 2 ^ k ≤ r.size.toNat :=
    Nat.le_of_dvd hpos (Nat.dvd_of_mod_eq_zero hsize)
  have h8 : 8 ∣ 2 ^ k := Nat.dvd_of_mod_eq_zero hpage8
  have hbase8 := h8.trans (Nat.dvd_of_mod_eq_zero hbase)
  have hsize8 := h8.trans (Nat.dvd_of_mod_eq_zero hsize)
  -- the chunks and the struct lie apart from the region
  have hpiece : ∀ q ∈ pieces k live free held, Apart q r.span := by
    intro q hq
    obtain ⟨r', hr', hlo, hhi⟩ := hl.region hq
    have hapart := hothers r' hr'
    unfold Apart Region.span at *
    simp only at *
    omega
  have hbelow : Apart (s.heap.addr.toNat, 120) r.span := by
    rw [hl.taken] at htaken
    exact htaken.symm
  obtain ⟨l, hperm, hlist⟩ := hi.marks.pages
  have hoff := hl.pageNodes_apart hperm
  have hnode := hl.fresh_nodes hfresh' hperm
  have hlist' : DList.Linked pageLinks m
      (s.heap.pageHead :: (l ++ [s.heap.pageTail])) :=
    hlist.congr fun b hb => hw _ fun x hx => by
      rw [List.mem_singleton.mp hx]
      exact hnode b hb
  obtain ⟨hlinked, hpush⟩ :=
    hl.addPage_ok hfresh' (by omega) hperm hlist'
  have hkeep : ∀ t : Span, Apart t r.span →
      (∀ b ∈ s.heap.pageHead :: (l ++ [s.heap.pageTail]),
        Apart t (DList.span pageLinks b)) →
      Agree t s.mem (addPage s.heap m r.base) := by
    intro t ht hb
    refine (hw t fun x hx => ?_).trans (hpush t hb ?_)
    · rw [List.mem_singleton.mp hx]
      exact ht
    · unfold Apart Region.span at *
      simp only at *
      omega
  have hagree : ∀ q ∈ pieces k live free held,
      Agree q s.mem (addPage s.heap m r.base) := fun q hq =>
    hkeep q (hpiece q hq) fun b hb => (hoff b hb).2 q hq
  refine ⟨hi.elsewhere ?_ rfl ?_ ?_ ?_ ⟨r.base :: l, ?_, ?_⟩, hagree⟩
  · refine { hl with regions := ?_, tiling := ?_, allocs := ?_ }
    · intro r' hr'
      rcases List.mem_cons.mp hr' with rfl | hr'
      · exact ⟨hbase, by omega, htop, htaken⟩
      · exact hl.regions r' hr'
    · refine hl.tiling.addRegion (r := r.span) ?_ ?_ ⟨?_, ?_, ?_⟩
      · intro q hq
        obtain ⟨r', hr', rfl⟩ := List.mem_map.mp hq
        exact hothers r' hr'
      all_goals unfold Region.span; simp only; omega
    · intro a ha
      obtain ⟨hbound, hsmall, hbig⟩ := hl.allocs a ha
      refine ⟨hbound, hsmall, fun hlg => ?_⟩
      obtain ⟨hsum, hlo, hmem⟩ := hbig hlg
      exact ⟨hsum, hlo, List.mem_cons_of_mem _ hmem⟩
  · exact fun a ha => hagree _ (Layout.chunk_mem ha)
  · exact fun c hc => hagree _ (Layout.free_mem hc)
  · refine hkeep _ ?_ fun b hb => (hoff b hb).1
    unfold Apart at *
    simp only at *
    omega
  · rw [List.map_cons]
    exact hperm.cons _
  · exact hlinked

/-- The page header of a large allocation. -/
theorem Layout.page_of {r : Region} (hl : Layout k h os live free held)
    (hr : r ∈ os.mapped) :
    (r.base + sizeofPageHeader) &&& h.pfnMask = r.base := by
  obtain ⟨hbase, hsize, htop, _⟩ := hl.regions r hr
  have hpage := page_bounds hl.shift
  have h32 : sizeofPageHeader.toNat = 32 := rfl
  have haddr : (r.base + sizeofPageHeader).toNat = r.base.toNat + 32 := by
    rw [BitVec.toNat_add, h32]
    omega
  apply BitVec.eq_of_toNat_eq
  obtain ⟨q, hq⟩ := Nat.dvd_of_mod_eq_zero hbase
  rw [hl.pfnMask, toNat_and_pfnMask hl.shift, haddr, hq,
    Nat.mul_add_div (Nat.two_pow_pos k), Nat.div_eq_of_lt (by omega),
    Nat.add_zero, Nat.mul_comm]

/-- A region given back, with the one chunk that it was. -/
theorem Inv.unmap {a : Alloc} (hi : Inv k s live free held)
    (ha : a ∈ live) (hlarge : a.Large k) :
    Inv k ⟨delPage s.mem (a.p - sizeofPageHeader), { s.os with
        mapped := s.os.mapped.erase (a.region k) }, s.heap⟩
        (live.erase a) free held
      ∧ ∀ q ∈ pieces k (live.erase a) free held,
        Agree q s.mem (delPage s.mem (a.p - sizeofPageHeader)) := by
  obtain ⟨_, h32, hmem⟩ := (hi.layout.allocs a ha).large hlarge
  have hi' := hi.release ha
  have hl := hi'.layout
  have hbase : (a.region k).base.toNat = a.p.toNat - 32 := by
    have hheader : sizeofPageHeader.toNat = 32 := rfl
    show (a.p - sizeofPageHeader).toNat = _
    rw [BitVec.toNat_sub, hheader]
    omega
  have hchunk : a.chunk k = ((a.region k).span.1 + 32,
      (a.region k).span.2 - 32) := by
    unfold Alloc.chunk Region.span
    rw [if_pos hlarge, hbase]
    simp only
    congr 1
    omega
  have hrest := List.perm_cons_erase hmem
  obtain ⟨l, hperm, hlist⟩ := hi'.marks.pages
  have hoff := hl.pageNodes_apart hperm
  obtain ⟨l', hperm', hlinked, hagree⟩ := delPage_ok hmem hperm hlist
  have hother : ∀ b ∈ live.erase a, b.Large k → b.region k ≠ a.region k := by
    intro b hb hbig heq
    have hapart := hl.held_live List.mem_cons_self hb
    have hb32 := (hl.allocs b hb).large hbig
    have hp : b.p = a.p :=
      (BitVec.sub_left_inj sizeofPageHeader).mp (congrArg Region.base heq)
    have hpos := (hl.piece_bounds (Layout.held_mem
      (List.mem_cons_self (a := a.chunk k)))).2.2.1
    have hpos' := (hl.piece_bounds (Layout.chunk_mem hb)).2.2.1
    unfold Apart Alloc.chunk at hapart
    unfold Alloc.chunk at hpos hpos'
    simp only at hapart hpos hpos'
    rw [hp] at hapart
    omega
  have hkeep : ∀ q ∈ pieces k (live.erase a) free held,
      Agree q s.mem (delPage s.mem (a.p - sizeofPageHeader)) := by
    intro q hq
    refine hagree _ fun b hb => (hoff b hb).2 _ ?_
    rcases mem_pieces.mp hq with hq | hq
    · exact mem_pieces.mpr (.inl (List.mem_cons_of_mem _ hq))
    · exact mem_pieces.mpr (.inr hq)
  refine ⟨hi'.elsewhere ?_ rfl ?_ ?_ ?_ ⟨l', hperm', hlinked⟩, hkeep⟩
  · refine { hl with regions := ?_, tiling := ?_, allocs := ?_ }
    · intro r hr
      exact hl.regions r (List.mem_of_mem_erase hr)
    · have htiling := hl.tiling.permRegions (hrest.map Region.span)
      have hpieces : pieces k (live.erase a) free (a.chunk k :: held)
          = a.chunk k :: pieces k (live.erase a) free held := rfl
      rw [hpieces, hchunk, List.map_cons] at htiling
      exact htiling.dropRegion
    · intro b hb
      obtain ⟨hbound, hsmall, hbig⟩ := hl.allocs b hb
      refine ⟨hbound, hsmall, fun hlg => ?_⟩
      obtain ⟨hsum, hlo, hin⟩ := hbig hlg
      exact ⟨hsum, hlo,
        (List.mem_erase_of_ne (hother b hb hlg)).mpr hin⟩
  · exact fun b hb => hkeep _ (Layout.chunk_mem hb)
  · exact fun c hc => hkeep _ (Layout.free_mem hc)
  · exact hagree _ fun b hb => (hoff b hb).1

end

end UdeBench.Npr.FirstFit
