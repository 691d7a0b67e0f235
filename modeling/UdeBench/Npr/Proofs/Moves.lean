/-
What the steps of npr/heap.c do to the heap of Chunks: a chunk leaves
the free list or enters it, a held chunk is written to, cut, joined or
handed over, the free chunk in front of a held one grows over it, a tag
in front of a chunk changes its bit for the next one.

Each of them keeps `Inv`, with the chunks in other hands, and changes
bytes only within the links of the free list, what is held, and the one
word it names.
-/
import UdeBench.Npr.Proofs.Chunks

namespace UdeBench.Npr.FirstFit

open Spans ByteMem

section
variable {k : Nat} {h : Heap} {os : Os} {live : List Alloc}
  {free : List Chunk} {held : List Span} {m m' : ByteMem} {s : Sys}

-- ============================================================== in hand

/-- The links of the free list lie apart from what is held. -/
theorem Layout.nodes_apart (hl : Layout k h os live free held) {q : Span}
    (hq : q ∈ held) : ∀ b ∈ freeNodes h free, Apart (freeSpan b) q := by
  obtain ⟨hhead, htail, _, _⟩ := hl.ends
  have htaken := hl.apart_taken (Layout.held_mem hq)
  intro b hb
  rcases List.mem_cons.mp hb with rfl | hb
  · rw [freeSpan_eq, hhead]
    unfold Apart at *
    simp only at *
    omega
  · rcases List.mem_append.mp hb with hb | hb
    · obtain ⟨c, hc, rfl⟩ := List.mem_map.mp hb
      exact (hl.links_apart hc (hl.held_free hq hc)).symm
    · rw [List.mem_singleton.mp hb, freeSpan_eq, htail]
      unfold Apart at *
      simp only at *
      omega

/-- So does a span in what is held. -/
theorem Layout.off_held (hl : Layout k h os live free held) {q t : Span}
    (hq : q ∈ held) (hlo : q.1 ≤ t.1) (hhi : t.1 + t.2 ≤ q.1 + q.2) :
    Apart t (freeSpan h.freeHead) ∧ Apart t (freeSpan h.freeTail)
      ∧ ∀ c ∈ free, Apart t (freeSpan c.addr) := by
  have hall : ∀ b ∈ freeNodes h free, Apart t (freeSpan b) := by
    intro b hb
    have hnode := hl.nodes_apart hq b hb
    unfold Apart at *
    omega
  refine ⟨hall _ List.mem_cons_self, hall _ ?_, fun c hc => hall _ ?_⟩
  · exact List.mem_cons_of_mem _ (List.mem_append_right _
      List.mem_cons_self)
  · exact List.mem_cons_of_mem _ (List.mem_append_left _
      (List.mem_map_of_mem hc))

/-- What is held may be written to. -/
theorem Inv.write (hi : Inv k s live free held)
    (hw : Within held s.mem m') :
    Inv k { s with mem := m' } live free held
      ∧ OffLinks s.heap free held s.mem m' := by
  have hout : OffLinks s.heap free held s.mem m' :=
    fun t _ _ _ hq => hw t hq
  refine ⟨⟨hi.layout, hi.marks.frame hi.layout hout, ?_⟩, hout⟩
  refine hi.list.congr fun b hb => ?_
  exact hw _ fun q hq => hi.layout.nodes_apart hq b hb

/-- The pieces may be listed in any order. -/
theorem Layout.perm {live' : List Alloc} {free' : List Chunk}
    {held' : List Span} (hl : Layout k h os live free held)
    (hp : (pieces k live free held).Perm (pieces k live' free' held'))
    (hfree : ∀ c ∈ free', 24 ≤ c.size.toNat)
    (hlive : ∀ a ∈ live', a.Ok k os.mapped) :
    Layout k h os live' free' held' :=
  { hl with tiling := hl.tiling.perm hp
            freeSize := hfree
            allocs := hlive }

/-- The pieces, a free one in hand. -/
theorem pieces_take {l₁ l₂ : List Chunk} {c : Chunk} :
    (pieces k live (l₁ ++ c :: l₂) held).Perm
      (pieces k live (l₁ ++ l₂) (c.span :: held)) := by
  unfold pieces
  rw [List.map_append, List.map_cons, List.map_append, ← List.append_assoc,
    ← List.append_assoc, List.cons_append, ← List.append_assoc,
    ← List.append_assoc]
  exact List.perm_middle

/-- The pieces, an allocated one in hand. -/
theorem pieces_release {a : Alloc} (ha : a ∈ live) :
    (pieces k live free held).Perm
      (pieces k (live.erase a) free (a.chunk k :: held)) := by
  unfold pieces
  have hlive : (live.map (Alloc.chunk k)).Perm
      (a.chunk k :: (live.erase a).map (Alloc.chunk k)) :=
    (List.perm_cons_erase ha).map _
  exact ((hlive.append_right _).append_left held).trans List.perm_middle

-- ======================================================== the free list

/-- The free list, cut. -/
theorem freeNodes_append {l₁ l₂ : List Chunk} :
    freeNodes h (l₁ ++ l₂)
      = (h.freeHead :: l₁.map Chunk.addr)
        ++ (l₂.map Chunk.addr ++ [h.freeTail]) := by
  unfold freeNodes
  rw [List.map_append, List.append_assoc, List.cons_append]

/-- What is apart from the links of the list, as `DList` counts them. -/
theorem apart_nodes {t : Span} (hhead : Apart t (freeSpan h.freeHead))
    (htail : Apart t (freeSpan h.freeTail))
    (hfree : ∀ c ∈ free, Apart t (freeSpan c.addr)) :
    ∀ b ∈ freeNodes h free, Apart t (freeSpan b) := by
  intro b hb
  rcases List.mem_cons.mp hb with rfl | hb
  · exact hhead
  · rcases List.mem_append.mp hb with hb | hb
    · obtain ⟨c, hc, rfl⟩ := List.mem_map.mp hb
      exact hfree c hc
    · rw [List.mem_singleton.mp hb]
      exact htail

/-- A chunk taken from the free list. -/
theorem Inv.take {l₁ l₂ : List Chunk} {c : Chunk}
    (hi : Inv k s live (l₁ ++ c :: l₂) held) :
    Inv k { s with mem := delFree s.mem c.addr } live (l₁ ++ l₂)
        (c.span :: held)
      ∧ OffLinks s.heap (l₁ ++ l₂) [] s.mem (delFree s.mem c.addr)
      ∧ (delFree s.mem c.addr).load64 c.addr = c.size := by
  have hc : c ∈ l₁ ++ c :: l₂ := by simp
  have hlist : DList.Linked freeLinks s.mem
      ((s.heap.freeHead :: l₁.map Chunk.addr)
        ++ c.addr :: (l₂.map Chunk.addr ++ [s.heap.freeTail])) := by
    have hnodes := hi.list
    rw [freeNodes_append] at hnodes
    exact hnodes
  obtain ⟨hlinked, hagree⟩ := hlist.remove (List.cons_ne_nil _ _) (by simp)
  rw [← freeNodes_append] at hlinked hagree
  have hout : ∀ held', OffLinks s.heap (l₁ ++ l₂) held' s.mem
      (delFree s.mem c.addr) := fun held' t hhead htail hfree _ =>
    hagree t (apart_nodes hhead htail hfree)
  have hsub : ∀ d ∈ l₁ ++ l₂, d ∈ l₁ ++ c :: l₂ := fun d hd =>
    mem_insert.mpr (.inr hd)
  have hl : Layout k s.heap s.os live (l₁ ++ l₂) (c.span :: held) :=
    hi.layout.perm pieces_take
      (fun d hd => hi.layout.freeSize d (hsub d hd)) hi.layout.allocs
  have hm : Marks k s.heap s.os.mapped s.mem live (l₁ ++ l₂) :=
    ⟨fun d hd => hi.marks.sizes d (hsub d hd), hi.marks.tags,
      hi.marks.pages⟩
  refine ⟨⟨hl, hm.frame hl (hout _), hlinked⟩, hout [], ?_⟩
  -- its own size is off the links of the others
  have hsize : Agree (span64 c.addr) s.mem (delFree s.mem c.addr) := by
    apply hagree
    intro b hb
    have hnode := hl.nodes_apart List.mem_cons_self b hb
    have h24 := hi.layout.freeSize c hc
    show Apart _ (freeSpan b)
    unfold Apart Chunk.span span64 at *
    simp only at *
    omega
  rw [hsize.load64]
  exact hi.marks.sizes c hc

/-- A held chunk put into the free list. -/
theorem Inv.put {c : Chunk} (hi : Inv k s live free (c.span :: held))
    (hsize : 24 ≤ c.size.toNat) (hload : s.mem.load64 c.addr = c.size) :
    Inv k { s with mem := addFree s.heap s.mem c.addr } live (free ++ [c])
        held
      ∧ OffLinks s.heap free [freeSpan c.addr] s.mem
        (addFree s.heap s.mem c.addr) := by
  have hl := hi.layout
  have hcs : c.span ∈ c.span :: held := List.mem_cons_self
  obtain ⟨hlo, hhi, _⟩ := hl.piece_bounds (Layout.held_mem hcs)
  have hspace : DList.InSpace freeLinks c.addr := by
    unfold Chunk.span at hhi
    show c.addr.toNat + 8 + 16 < 2 ^ 64
    simp only at hhi
    omega
  have hapart : ∀ b ∈ freeNodes s.heap free,
      Apart (freeSpan c.addr) (freeSpan b) := by
    intro b hb
    have hnode := hl.nodes_apart hcs b hb
    rw [freeSpan_eq c.addr]
    unfold Apart Chunk.span at *
    simp only at *
    omega
  have hlist : DList.Linked freeLinks s.mem
      ((s.heap.freeHead :: free.map Chunk.addr) ++ [s.heap.freeTail]) :=
    hi.list
  obtain ⟨hlinked, hagree⟩ :=
    hlist.pushBack (List.cons_ne_nil _ _) hspace hapart
  have hout : OffLinks s.heap free [freeSpan c.addr] s.mem
      (addFree s.heap s.mem c.addr) :=
    fun t hhead htail hfree hheld =>
      hagree t (apart_nodes hhead htail hfree) (hheld _ List.mem_cons_self)
  have hm := hi.marks.frame hl (hout.mono (fun d hd => .inl hd)
    fun q hq => ⟨c.span, hcs, by
      rw [List.mem_singleton.mp hq, freeSpan_eq]
      unfold Chunk.span
      simp only
      omega⟩)
  refine ⟨⟨?_, ⟨?_, hm.tags, hm.pages⟩, ?_⟩, hout⟩
  · refine hl.perm ?_ ?_ hl.allocs
    · have hback : (pieces k live (free ++ [c]) held).Perm
          (pieces k live (free ++ []) (c.span :: held)) := pieces_take
      rw [List.append_nil] at hback
      exact hback.symm
    · intro d hd
      rcases List.mem_append.mp hd with hd | hd
      · exact hl.freeSize d hd
      · rw [List.mem_singleton.mp hd]
        exact hsize
  · intro d hd
    rcases List.mem_append.mp hd with hd | hd
    · exact hm.sizes d hd
    · rw [List.mem_singleton.mp hd, ← hload]
      apply Agree.load64
      refine hagree _ ?_ (.inl (Nat.le_refl _))
      intro b hb
      have hnode := hl.nodes_apart hcs b hb
      show Apart _ (freeSpan b)
      unfold Apart Chunk.span span64 at *
      simp only at *
      omega
  · rw [freeNodes_append]
    exact hlinked

-- ================================================== cut, joined, handed

/-- A held chunk cut in two. -/
theorem Inv.split {x a b : Nat} (hi : Inv k s live free ((x, a + b) :: held))
    (ha : 0 < a) (hb : 0 < b) (hmod : a % 8 = 0) :
    Inv k s live free ((x, a) :: (x + a, b) :: held) :=
  { hi with layout := { hi.layout with
      tiling := hi.layout.tiling.split ha hb hmod } }

/-- Two held chunks joined. -/
theorem Inv.join {x a b : Nat}
    (hi : Inv k s live free ((x, a) :: (x + a, b) :: held)) :
    Inv k s live free ((x, a + b) :: held) :=
  { hi with layout := { hi.layout with
      tiling := hi.layout.tiling.join (by decide) } }

/-- A small allocation given back: its chunk is in hand. -/
theorem Inv.release {a : Alloc} (hi : Inv k s live free held)
    (ha : a ∈ live) :
    Inv k s (live.erase a) free (a.chunk k :: held) := by
  have hsub : ∀ b ∈ live.erase a, b ∈ live := fun b hb =>
    List.mem_of_mem_erase hb
  refine ⟨hi.layout.perm (pieces_release ha) hi.layout.freeSize
    (fun b hb => hi.layout.allocs b (hsub b hb)), ?_, hi.list⟩
  exact ⟨hi.marks.sizes, fun b hb => hi.marks.tags b (hsub b hb),
    hi.marks.pages⟩

/-- A held chunk handed to the program. -/
theorem Inv.adopt {a : Alloc} (hi : Inv k s live free (a.chunk k :: held))
    (hok : a.Ok k s.os.mapped)
    (htag : ¬ a.Large k → s.mem.load32 a.tag &&& tagMask
      = (calcAllocSize a.n).setWidth 32 ||| thisAllocatedBit) :
    Inv k s (a :: live) free held := by
  refine ⟨hi.layout.perm ?_ hi.layout.freeSize ?_, ?_, hi.list⟩
  · unfold pieces
    rw [List.map_cons, List.cons_append, List.cons_append]
    exact List.perm_middle.symm
  · intro b hb
    rcases List.mem_cons.mp hb with rfl | hb
    · exact hok
    · exact hi.layout.allocs b hb
  · refine ⟨hi.marks.sizes, ?_, hi.marks.pages⟩
    intro b hb
    rcases List.mem_cons.mp hb with rfl | hb
    · exact htag
    · exact hi.marks.tags b hb

-- ============================================================ the tag word

/-- Where the tag of the chunk in front of a piece is: in no other piece,
and at the end of that one. -/
theorem Layout.slot_cases (hl : Layout k h os live free held) {x : Addr}
    {q q' : Span} (hq : q ∈ pieces k live free held)
    (hx : q.1 = x.toNat + 4) (hq' : q' ∈ pieces k live free held) :
    Apart q' (span32 x) ∨ q'.1 + q'.2 = x.toNat + 4 := by
  obtain ⟨_, _, _, hmod, _⟩ := hl.piece_bounds hq
  obtain ⟨_, _, hpos, hmod', hsize'⟩ := hl.piece_bounds hq'
  by_cases hsame : q' = q
  · subst hsame
    left
    right
    unfold span32
    simp only
    omega
  · have hapart := hl.apart hq' hq hsame
    unfold Apart span32 at *
    simp only at *
    omega

/-- The test for the first chunk of a page. -/
theorem Layout.first_iff (hl : Layout k h os live free held) (f : Addr) :
    h.pageOffset f = sizeofPageHeader ↔ f.toNat % 2 ^ k = 32 := by
  rw [← toNat_pageOffset hl.shift hl.pfnMask]
  exact BitVec.toNat_inj.symm

/-- In front of a chunk that is not the first of a page there is a word
of its region. -/
theorem Layout.slot_inside (hl : Layout k h os live free held) {f : Addr}
    {q : Span} (hq : q ∈ pieces k live free held) (hf : q.1 = f.toNat)
    (hne : f.toNat % 2 ^ k ≠ 32) :
    (f - 4).toNat + 4 = f.toNat
      ∧ ∃ r ∈ os.mapped, Inside 32 r.span (span32 (f - 4)) := by
  obtain ⟨r, hr, hlo, hhi⟩ := hl.region hq
  obtain ⟨hq32, _, hqpos, hqmod, _⟩ := hl.piece_bounds hq
  obtain ⟨hbase, _⟩ := hl.regions r hr
  obtain ⟨hpage, _, hpage8⟩ := page_bounds hl.shift
  have h4 : (4 : Addr).toNat = 4 := rfl
  have hslot : (f - 4).toNat = f.toNat - 4 := by
    rw [BitVec.toNat_sub, h4]
    omega
  have hbase8 := (Nat.dvd_of_mod_eq_zero hpage8).trans
    (Nat.dvd_of_mod_eq_zero hbase)
  have hfront : f.toNat ≠ r.base.toNat + 32 := by
    intro heq
    rw [heq, Nat.add_mod, hbase, Nat.zero_add, Nat.mod_mod,
      Nat.mod_eq_of_lt (by omega)] at hne
    exact hne rfl
  unfold Region.span at hlo hhi
  simp only at hlo hhi
  refine ⟨by omega, r, hr, ?_, ?_⟩
  all_goals unfold Region.span span32; simp only; omega

/-- A word in front of a piece, behind a page header and not in the links
of a free chunk that ends there, is off the free list. -/
theorem Layout.slot_apart (hl : Layout k h os live free held) {x : Addr}
    {q : Span} {r : Region} (hq : q ∈ pieces k live free held)
    (hx : q.1 = x.toNat + 4) (hr : r ∈ os.mapped)
    (hin : Inside 32 r.span (span32 x))
    (hno : ∀ c ∈ free, c.size.toNat = 24 →
      c.addr.toNat + c.size.toNat ≠ x.toNat + 4) :
    Apart (span32 x) (freeSpan h.freeHead)
      ∧ Apart (span32 x) (freeSpan h.freeTail)
      ∧ ∀ c ∈ free, Apart (span32 x) (c.addr.toNat, 24) := by
  obtain ⟨hhead, htail, _, _⟩ := hl.ends
  have hstruct := (hl.inside_apart hr hin).1
  refine ⟨?_, ?_, ?_⟩
  · rw [freeSpan_eq, hhead]
    unfold Apart at *
    simp only at *
    omega
  · rw [freeSpan_eq, htail]
    unfold Apart at *
    simp only at *
    omega
  · intro c hc
    have h24 := hl.freeSize c hc
    have hodd := hno c hc
    obtain ⟨_, _, _, _, hmod⟩ := hl.piece_bounds (Layout.free_mem hc)
    have hcases := hl.slot_cases hq hx (Layout.free_mem hc)
    unfold Apart Chunk.span span32 at *
    simp only at *
    omega

/-- Such a word may be written, if it keeps all of the tag there but the
bit for the piece. -/
theorem Inv.slot {x : Addr} {v : Word} {q : Span} {r : Region}
    (hi : Inv k s live free held) (hq : q ∈ pieces k live free held)
    (hx : q.1 = x.toNat + 4) (hr : r ∈ s.os.mapped)
    (hin : Inside 32 r.span (span32 x))
    (hno : ∀ c ∈ free, c.size.toNat = 24 →
      c.addr.toNat + c.size.toNat ≠ x.toNat + 4)
    (hv : v &&& tagMask = s.mem.load32 x &&& tagMask) :
    Inv k { s with mem := s.mem.store32 x v } live free held
      ∧ ∀ a ∈ live, Agree a.payload s.mem (s.mem.store32 x v) := by
  have hl := hi.layout
  have hm := hi.marks
  obtain ⟨hstruct, hheaders⟩ := hl.inside_apart hr hin
  obtain ⟨hhead, htail, hfree⟩ := hl.slot_apart hq hx hr hin hno
  refine ⟨⟨hl, ⟨?_, ?_, ?_⟩, ?_⟩, ?_⟩
  · intro c hc
    rw [Agree.load64 (agree_store32 ?_ _ _)]
    · exact hm.sizes c hc
    · have hc := hfree c hc
      unfold Apart span64 at *
      simp only at *
      omega
  · intro a ha hsmall
    obtain ⟨htag, h16⟩ := hl.tag_toNat ha hsmall
    by_cases hend : a.tag = x
    · rw [hend, load32_store32, hv, ← hend]
      exact hm.tags a ha hsmall
    · rw [Agree.load32 (agree_store32 ?_ _ _)]
      · exact hm.tags a ha hsmall
      · have hne : a.tag.toNat ≠ x.toNat := fun heq =>
          hend (BitVec.eq_of_toNat_eq heq)
        have hcases := hl.slot_cases hq hx (Layout.chunk_mem ha)
        unfold Apart span32 at *
        simp only at *
        omega
  · obtain ⟨l, hperm, hlist⟩ := hm.pages
    refine ⟨l, hperm, hl.pages_congr hperm hlist ?_ ?_⟩
    · intro r' hr'
      exact agree_store32 (hheaders r' hr') _ _
    · apply agree_store32
      unfold Apart at *
      simp only at *
      omega
  · refine hi.list.congr fun b hb => ?_
    apply agree_store32
    refine (apart_nodes hhead htail ?_ b hb).symm
    intro c hc
    have hc := hfree c hc
    rw [freeSpan_eq]
    unfold Apart at *
    simp only at *
    omega
  · intro a ha
    apply agree_store32
    have hlt := (hl.allocs a ha).payload_lt hl.shift
    have hcases := hl.slot_cases hq hx (Layout.chunk_mem ha)
    have haddr : (a.chunk k).1 = a.p.toNat := rfl
    unfold Apart Alloc.payload span32 at *
    simp only at *
    omega

-- ========================================================= growing over

/-- A free chunk grows over the held one behind it. Its place in the list
stays. -/
theorem Inv.grow {l₁ l₂ : List Chunk} {c : Chunk} {sz : Size} {t : Nat}
    (hi : Inv k s live (l₁ ++ c :: l₂)
      ((c.addr.toNat + c.size.toNat, t) :: held))
    (hsz : sz.toNat = c.size.toNat + t)
    (hw : Within [span64 c.addr, (c.addr.toNat + c.size.toNat, t)] s.mem m')
    (hload : m'.load64 c.addr = sz) :
    Inv k { s with mem := m' } live (l₁ ++ ⟨c.addr, sz⟩ :: l₂) held
      ∧ ∀ a ∈ live, Agree a.payload s.mem m' := by
  have hc : c ∈ l₁ ++ c :: l₂ := by simp
  have h24 := hi.layout.freeSize c hc
  have hsub : ∀ d ∈ l₁ ++ l₂, d ∈ l₁ ++ c :: l₂ := fun d hd =>
    mem_insert.mpr (.inr hd)
  -- with the chunk in hand the change is one of what is held
  have hl : Layout k s.heap s.os live (l₁ ++ l₂)
      (c.span :: (c.addr.toNat + c.size.toNat, t) :: held) :=
    hi.layout.perm pieces_take
      (fun d hd => hi.layout.freeSize d (hsub d hd)) hi.layout.allocs
  have hm : Marks k s.heap s.os.mapped s.mem live (l₁ ++ l₂) :=
    ⟨fun d hd => hi.marks.sizes d (hsub d hd), hi.marks.tags,
      hi.marks.pages⟩
  have hheld : Within (c.span :: (c.addr.toNat + c.size.toNat, t) :: held)
      s.mem m' := by
    refine hw.mono fun x hx => ?_
    rcases List.mem_cons.mp hx with rfl | hx
    · refine ⟨c.span, List.mem_cons_self, Nat.le_refl _, ?_⟩
      unfold span64 Chunk.span
      simp only
      omega
    · rw [List.mem_singleton.mp hx]
      exact ⟨_, List.mem_cons_of_mem _ List.mem_cons_self, Nat.le_refl _,
        Nat.le_refl _⟩
  have hout : OffLinks s.heap (l₁ ++ l₂)
      (c.span :: (c.addr.toNat + c.size.toNat, t) :: held) s.mem m' :=
    fun r _ _ _ hq => hheld r hq
  have hm' := hm.frame hl hout
  have hspan : Chunk.span ⟨c.addr, sz⟩
      = (c.addr.toNat, c.size.toNat + t) := by
    unfold Chunk.span
    rw [hsz]
  refine ⟨⟨?_, ⟨?_, hm'.tags, hm'.pages⟩, ?_⟩, hout.payload hl⟩
  · have hjoined : Layout k s.heap s.os live (l₁ ++ l₂)
        (Chunk.span ⟨c.addr, sz⟩ :: held) := by
      rw [hspan]
      exact { hl with tiling := hl.tiling.join (by decide) }
    refine hjoined.perm pieces_take.symm ?_ hl.allocs
    intro d hd
    rcases List.mem_append.mp hd with hd | hd
    · exact hl.freeSize d (List.mem_append_left _ hd)
    · rcases List.mem_cons.mp hd with rfl | hd
      · simp only
        omega
      · exact hl.freeSize d (List.mem_append_right _ hd)
  · intro d hd
    rcases List.mem_append.mp hd with hd | hd
    · exact hm'.sizes d (List.mem_append_left _ hd)
    · rcases List.mem_cons.mp hd with rfl | hd
      · exact hload
      · exact hm'.sizes d (List.mem_append_right _ hd)
  · have hlist : DList.Linked freeLinks m'
        (freeNodes s.heap (l₁ ++ c :: l₂)) := by
      refine hi.list.congr fun b hb => hw _ fun x hx => ?_
      by_cases hself : b = c.addr
      · show Apart (freeSpan b) x
        rw [hself, freeSpan_eq]
        rcases List.mem_cons.mp hx with rfl | hx
        · exact .inr (Nat.le_refl _)
        · rw [List.mem_singleton.mp hx]
          left
          simp only
          omega
      · have hb' : b ∈ freeNodes s.heap (l₁ ++ l₂) := by
          unfold freeNodes at hb ⊢
          simp only [List.map_append, List.map_cons, List.mem_cons,
            List.mem_append] at hb ⊢
          tauto
        have hnode := hl.nodes_apart (q := c.span) List.mem_cons_self b hb'
        have hnode' := hl.nodes_apart (List.mem_cons_of_mem _
          List.mem_cons_self) b hb'
        rcases List.mem_cons.mp hx with rfl | hx
        · show Apart (freeSpan b) _
          unfold Apart Chunk.span span64 at *
          simp only at *
          omega
        · rw [List.mem_singleton.mp hx]
          exact hnode'
    have hnodes : freeNodes s.heap (l₁ ++ ⟨c.addr, sz⟩ :: l₂)
        = freeNodes s.heap (l₁ ++ c :: l₂) := by
      unfold freeNodes
      rw [List.map_append, List.map_append, List.map_cons, List.map_cons]
    rw [hnodes]
    exact hlist

end

end UdeBench.Npr.FirstFit
