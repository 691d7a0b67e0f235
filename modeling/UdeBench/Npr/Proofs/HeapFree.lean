/-
`npr_heap_free` and the heap of Chunks: what is behind the chunk, what
is in front of it, and the region of a large allocation.

The chunk given back is in hand until its place in the free list is
found. It may first take in the free chunk behind it (`freeNext_ok`);
then it enters the list, or the free chunk in front grows over it
(`freePrev_ok`).
-/
import UdeBench.Npr.Proofs.HeapAlloc

namespace UdeBench.Npr.FirstFit

open Spans ByteMem

section
variable {k : Nat} {live : List Alloc} {free : List Chunk}
  {held : List Span} {s : Sys}

-- ========================================================= what is behind

/-- Where the chunk behind an allocation is, and the tag in front of
it. -/
theorem Layout.behind_toNat {h : Heap} {os : Os}
    (hl : Layout k h os live free held) {b : Alloc} (hb : b ∈ live)
    (hsmall : ¬ b.Large k) :
    (b.p + calcAllocSize b.n).toNat = b.p.toNat + (calcAllocSize b.n).toNat
      ∧ (b.p + calcAllocSize b.n - 4).toNat + 4
        = b.p.toNat + (calcAllocSize b.n).toNat
      ∧ 16 ≤ (calcAllocSize b.n).toNat := by
  have hchunk : b.chunk k ∈ pieces k live free held := Layout.chunk_mem hb
  have h16 := (hl.allocs b hb).small hsmall
  obtain ⟨_, hhi, _⟩ := hl.piece_bounds hchunk
  rw [Alloc.chunk_small k hsmall] at hhi
  have h4 : (4 : Addr).toNat = 4 := rfl
  simp only at hhi
  rw [BitVec.toNat_sub, BitVec.toNat_add, h4]
  omega

/-- The size of a chunk given back, and its tag, written. -/
theorem Inv.sized {p : Addr} {a : Size} {v : Word}
    (hi : Inv k s live free ((p.toNat, a.toNat) :: held))
    (h16 : 16 ≤ a.toNat) (htag : (p + a - 4).toNat + 4 = p.toNat + a.toNat) :
    Inv k { s with mem := s.mem.store64 p a } live free
        ((p.toNat, a.toNat) :: held)
      ∧ Inv k { s with mem := (s.mem.store64 p a).store32 (p + a - 4) v }
        live free ((p.toNat, a.toNat) :: held)
      ∧ Within [(p.toNat, a.toNat)] s.mem (s.mem.store64 p a)
      ∧ Within [(p.toNat, a.toNat)] s.mem
        ((s.mem.store64 p a).store32 (p + a - 4) v)
      ∧ ((s.mem.store64 p a).store32 (p + a - 4) v).load64 p = a := by
  have hsize : Within [(p.toNat, a.toNat)] s.mem (s.mem.store64 p a) := by
    refine within_store64 List.mem_cons_self (Nat.le_refl _) ?_ _ _
    simp only
    omega
  have hboth := hsize.trans (within_store32 List.mem_cons_self
    (a := p + a - 4) (by simp only; omega) (by simp only; omega)
    (s.mem.store64 p a) v)
  have hheld : ∀ x ∈ [(p.toNat, a.toNat)],
      ∃ y ∈ (p.toNat, a.toNat) :: held, y.1 ≤ x.1
        ∧ x.1 + x.2 ≤ y.1 + y.2 := by
    intro x hx
    rw [List.mem_singleton.mp hx]
    exact ⟨_, List.mem_cons_self, Nat.le_refl _, Nat.le_refl _⟩
  refine ⟨(hi.write (hsize.mono hheld)).1, (hi.write (hboth.mono hheld)).1,
    hsize, hboth, ?_⟩
  rw [Agree.load64 (agree_store32 ?_ _ _)]
  · exact load64_store64 _ _ _
  · left
    unfold span64 span32
    simp only
    omega

/-- What is in hand may be listed in any order. -/
theorem Inv.swap {q q' : Span} (hi : Inv k s live free (q :: q' :: held)) :
    Inv k s live free (q' :: q :: held) :=
  ⟨hi.layout.perm (List.Perm.swap _ _ _) hi.layout.freeSize
    hi.layout.allocs, hi.marks, hi.list⟩

/-- What the part about the chunk behind comes to: in hand is the chunk
given back, or it and the free one behind. -/
structure Behind (k : Nat) (s : Sys) (live : List Alloc)
    (free free' : List Chunk) (p : Addr) (a sz : Size) (m : ByteMem) :
    Prop where
  extent : ((p + a).toNat % 2 ^ k = 0
        ∨ s.mem.load32 (p + a - 4) &&& nextAllocatedBit ≠ 0)
      ∧ free' = free ∧ sz = a
    ∨ ((p + a).toNat % 2 ^ k ≠ 0
        ∧ s.mem.load32 (p + a - 4) &&& nextAllocatedBit = 0)
      ∧ ∃ l₁ c l₂, free = l₁ ++ c :: l₂ ∧ free' = l₁ ++ l₂
        ∧ c.addr = p + a ∧ sz = a + c.size
  inv : Inv k { s with mem := m } live free' [(p.toNat, sz.toNat)]
  load : m.load64 p = sz
  out : OffLinks s.heap free' [(p.toNat, sz.toNat)] s.mem m
  tag : (p + a).toNat % 2 ^ k ≠ 0 →
    m.load32 (p + sz - 4) = sz.setWidth 32 ||| nextAllocatedBit

/-- The test for the last chunk of a page. -/
theorem Layout.last_iff {h : Heap} {os : Os}
    (hl : Layout k h os live free held) (x : Addr) :
    h.pageOffset x = 0 ↔ x.toNat % 2 ^ k = 0 := by
  rw [← toNat_pageOffset hl.shift hl.pfnMask]
  exact BitVec.toNat_inj.symm

/-- The part about the chunk behind, where a tag that says that it is
free is right. -/
theorem Inv.freeNext_ok {p : Addr} {n a : Size} (ha : calcAllocSize n = a)
    (hi : Inv k s live free []) (hb : ⟨p, n⟩ ∈ live)
    (hsmall : ¬ IsLarge (pageOf k) a)
    (hnext : (p + a).toNat % 2 ^ k = 0
      ∨ s.mem.load32 (p + a - 4) &&& nextAllocatedBit ≠ 0
      ∨ ∃ c ∈ free, c.addr = p + a) :
    ∃ m free' sz, freeNext s.heap s.mem p a = .ok m
      ∧ Behind k s (live.erase ⟨p, n⟩) free free' p a sz m := by
  subst ha
  have hl := hi.layout
  have hbs : ¬ Alloc.Large k ⟨p, n⟩ := hsmall
  obtain ⟨hnextAddr, htagAddr, h16⟩ := hl.behind_toNat hb hbs
  have hrel := hi.release hb
  rw [Alloc.chunk_small k hbs] at hrel
  have hlt := hsmall
  rw [isLarge_iff hl.shift] at hlt
  have hpage := page_bounds hl.shift
  have hmark := hi.marks.tags _ hb hbs
  unfold Alloc.tag at hmark
  simp only at hmark
  have hread := tag_read (a := calcAllocSize n) (by omega) hmark
  have hlast := hl.last_iff (p + calcAllocSize n)
  simp only at hnextAddr htagAddr h16 hrel
  unfold freeNext
  by_cases hend : (p + calcAllocSize n).toNat % 2 ^ k = 0
  · -- the last chunk of a page
    rw [if_pos (hlast.mpr hend)]
    obtain ⟨hinv, _, hw, _, _⟩ := hrel.sized (v := 0) h16 htagAddr
    exact ⟨_, free, calcAllocSize n, rfl, .inl ⟨.inl hend, rfl, rfl⟩, hinv,
      load64_store64 _ _ _, fun t _ _ _ hq => hw t hq,
      fun hne => absurd hend hne⟩
  · rw [if_neg (fun h => hend (hlast.mp h)), if_pos hread.1.symm]
    by_cases hbit : s.mem.load32 (p + calcAllocSize n - 4)
        &&& nextAllocatedBit = 0
    · -- the free chunk behind
      obtain ⟨⟨x, sz⟩, hc, haddr⟩ := (hnext.resolve_left hend).resolve_left
        fun hne => hne hbit
      simp only at haddr
      subst haddr
      obtain ⟨l₁, l₂, rfl⟩ := List.append_of_mem hc
      obtain ⟨htaken, htake, hload⟩ := hrel.take
      simp only at hload
      have hspan : Chunk.span ⟨p + calcAllocSize n, sz⟩
          = (p.toNat + (calcAllocSize n).toNat, sz.toNat) := by
        unfold Chunk.span
        rw [hnextAddr]
      have hjoin := htaken.swap
      rw [hspan] at hjoin
      have hjoin := hjoin.join
      have hpiece := hjoin.layout.piece_bounds
        (Layout.held_mem List.mem_cons_self)
      have hsum : (calcAllocSize n + sz).toNat
          = (calcAllocSize n).toNat + sz.toNat := by
        rw [BitVec.toNat_add]
        simp only at hpiece
        omega
      rw [← hsum] at hjoin
      have hend' : (p + (calcAllocSize n + sz) - 4).toNat + 4
          = p.toNat + (calcAllocSize n + sz).toNat := by
        have h4 : (4 : Addr).toNat = 4 := rfl
        rw [BitVec.toNat_sub, BitVec.toNat_add, h4]
        simp only at hpiece
        omega
      obtain ⟨_, hinv, _, hw, hsz⟩ := hjoin.sized
        (v := (calcAllocSize n + sz).setWidth 32 ||| nextAllocatedBit)
        (by omega) hend'
      have haddr : p + calcAllocSize n + sz - 4
          = p + (calcAllocSize n + sz) - 4 := by
        rw [BitVec.add_assoc]
      rw [if_pos hbit]
      simp only [hload, haddr]
      refine ⟨_, l₁ ++ l₂, calcAllocSize n + sz, rfl,
        ⟨.inr ⟨⟨hend, hbit⟩, l₁, _, l₂, rfl, rfl, rfl, rfl⟩, hinv, hsz, ?_,
          fun _ => load32_store32 _ _ _⟩⟩
      exact (htake.mono (fun d hd => .inl hd) fun q hq => by cases hq).trans
        fun t _ _ _ hq => hw t hq
    · rw [if_neg hbit]
      obtain ⟨_, hinv, _, hw, hsz⟩ := hrel.sized
        (v := (calcAllocSize n).setWidth 32 ||| nextAllocatedBit) h16 htagAddr
      exact ⟨_, free, calcAllocSize n, rfl, .inl ⟨.inr hbit, rfl, rfl⟩, hinv,
        hsz, fun t _ _ _ hq => hw t hq, fun _ => load32_store32 _ _ _⟩

-- ====================================================== what is in front

/-- The chunk in hand enters the list. -/
theorem Inv.enter {p : Addr} {sz : Size}
    (hi : Inv k s live free [(p.toNat, sz.toNat)])
    (hload : s.mem.load64 p = sz) (h24 : 24 ≤ sz.toNat) :
    Inv k { s with mem := addFree s.heap s.mem p } live
        (free ++ [⟨p, sz⟩]) []
      ∧ OffLinks s.heap free [freeSpan p] s.mem
        (addFree s.heap s.mem p) := by
  have hput := Inv.put (c := ⟨p, sz⟩) hi h24 hload
  exact hput

/-- The chunk in hand is the first of a page. -/
theorem Inv.freePrev_first {p : Addr} {sz : Size}
    (hi : Inv k s live free [(p.toNat, sz.toNat)])
    (hload : s.mem.load64 p = sz) (h24 : 24 ≤ sz.toNat)
    (hfirst : p.toNat % 2 ^ k = 32) :
    Inv k { s with mem := freePrev s.heap s.mem p } live
        (free ++ [⟨p, sz⟩]) []
      ∧ OffLinks s.heap free [freeSpan p] s.mem
        (freePrev s.heap s.mem p) := by
  unfold freePrev
  rw [if_pos ((hi.layout.first_iff p).mpr hfirst)]
  exact hi.enter hload h24

/-- The chunk in front is allocated. -/
theorem Inv.freePrev_enter {p : Addr} {sz : Size}
    (hi : Inv k s live free [(p.toNat, sz.toNat)])
    (hload : s.mem.load64 p = sz) (h24 : 24 ≤ sz.toNat)
    (hne : p.toNat % 2 ^ k ≠ 32)
    (hthis : s.mem.load32 (p - 4) &&& thisAllocatedBit ≠ 0)
    (hno : ∀ c ∈ free, c.size.toNat = 24 →
      c.addr.toNat + c.size.toNat ≠ p.toNat) :
    Inv k { s with mem := freePrev s.heap s.mem p } live
        (free ++ [⟨p, sz⟩]) []
      ∧ (∀ b ∈ live, Agree b.payload s.mem (freePrev s.heap s.mem p))
      ∧ OffLinks s.heap free [freeSpan p, (p.toNat - 4, 4)] s.mem
        (freePrev s.heap s.mem p)
      ∧ (freePrev s.heap s.mem p).load32 (p - 4)
        = s.mem.load32 (p - 4) &&& ~~~nextAllocatedBit := by
  have hl := hi.layout
  have hheld : (p.toNat, sz.toNat) ∈ [(p.toNat, sz.toNat)] :=
    List.mem_cons_self
  obtain ⟨hslot, r, hr, hin⟩ :=
    hl.slot_inside (f := p) (Layout.held_mem hheld) rfl hne
  obtain ⟨hput, hout⟩ := hi.enter hload h24
  -- the word in front is not in the links
  obtain ⟨hhead, htail, hfree⟩ := hl.slot_apart (Layout.held_mem hheld)
    (by simp only; omega) hr hin (by
      intro c hc hc24 heq
      exact hno c hc hc24 (by omega))
  have hword : Agree (span32 (p - 4)) s.mem (addFree s.heap s.mem p) := by
    refine hout _ hhead htail (fun c hc => ?_) fun q hq => ?_
    · have hc := hfree c hc
      rw [freeSpan_eq]
      unfold Apart at *
      simp only at *
      omega
    · rw [List.mem_singleton.mp hq, freeSpan_eq]
      left
      unfold span32
      simp only
      omega
  have hpiece : Chunk.span ⟨p, sz⟩ ∈ pieces k live (free ++ [⟨p, sz⟩]) [] :=
    Layout.free_mem (by simp)
  obtain ⟨hinv, hkeep⟩ := hput.slot (x := p - 4)
    (v := s.mem.load32 (p - 4) &&& ~~~nextAllocatedBit) hpiece
    (by unfold Chunk.span; simp only; omega) hr hin
    (by
      intro c hc hc24 heq
      rcases List.mem_append.mp hc with hc | hc
      · exact hno c hc hc24 (by omega)
      · rw [List.mem_singleton.mp hc] at heq hc24
        simp only at heq hc24
        omega)
    (by
      rw [and_not_nextAllocated]
      exact congrArg (· &&& tagMask) hword.load32.symm)
  have heq : freePrev s.heap s.mem p
      = (addFree s.heap s.mem p).store32 (p - 4)
        (s.mem.load32 (p - 4) &&& ~~~nextAllocatedBit) := by
    unfold freePrev
    rw [if_neg (fun h => hne ((hl.first_iff p).mp h)), if_pos hthis]
    simp only [hword.load32]
  rw [heq]
  refine ⟨hinv, ?_, ?_, load32_store32 _ _ _⟩
  · intro b hb
    have hheld := hout.chunk (q := (p.toNat, sz.toNat)) (Nat.le_refl _)
      (by simp only; omega)
    exact (hheld.payload hl b hb).trans (hkeep b hb)
  · refine (hout.mono (fun c hc => .inl hc) fun q hq => ?_).trans ?_
    · rw [List.mem_singleton.mp hq]
      exact ⟨_, List.mem_cons_self, Nat.le_refl _, Nat.le_refl _⟩
    · intro t _ _ _ hq
      refine within_store32 (l := [(p.toNat - 4, 4)]) List.mem_cons_self
        (by simp only; omega) (by simp only; omega) _ _ t fun x hx => ?_
      exact hq x (List.mem_cons_of_mem _ hx)

/-- The chunk in front is free, and grows. -/
theorem Inv.freePrev_grow {l₁ l₂ : List Chunk} {c : Chunk} {p : Addr}
    {sz : Size}
    (hi : Inv k s live (l₁ ++ c :: l₂) [(p.toNat, sz.toNat)])
    (hload : s.mem.load64 p = sz) (h16 : 16 ≤ sz.toNat)
    (hne : p.toNat % 2 ^ k ≠ 32)
    (hthis : s.mem.load32 (p - 4) &&& thisAllocatedBit = 0)
    (haddr : c.addr = p - (s.mem.load32 (p - 4) &&& sizeMask).setWidth 64)
    (hsize : c.size = (s.mem.load32 (p - 4) &&& sizeMask).setWidth 64) :
    Inv k { s with mem := freePrev s.heap s.mem p } live
        (l₁ ++ ⟨c.addr, sz + c.size⟩ :: l₂) []
      ∧ (∀ b ∈ live, Agree b.payload s.mem (freePrev s.heap s.mem p))
      ∧ Within [span64 c.addr, (p.toNat, sz.toNat)] s.mem
        (freePrev s.heap s.mem p)
      ∧ (freePrev s.heap s.mem p).load32 (p + sz - 4)
        = (sz + c.size).setWidth 32 ||| nextAllocatedBit := by
  have hl := hi.layout
  have hc : c ∈ l₁ ++ c :: l₂ := by simp
  have hheld : (p.toNat, sz.toNat) ∈ [(p.toNat, sz.toNat)] :=
    List.mem_cons_self
  have h24 := hl.freeSize c hc
  obtain ⟨_, hhi, _⟩ := hl.piece_bounds (Layout.held_mem hheld)
  obtain ⟨_, hchi, _⟩ := hl.piece_bounds (Layout.free_mem hc)
  unfold Chunk.span at hchi
  simp only at hhi hchi
  rw [← hsize] at haddr
  have hp : p = c.addr + c.size := by
    rw [haddr]
    exact (BitVec.sub_add_cancel p c.size).symm
  have hpnat : p.toNat = c.addr.toNat + c.size.toNat := by
    rw [hp, BitVec.toNat_add]
    omega
  have hsum : (sz + c.size).toNat = c.size.toNat + sz.toNat := by
    rw [BitVec.toNat_add]
    omega
  have hend : c.addr + (sz + c.size) - 4 = p + sz - 4 := by
    rw [hp, BitVec.add_comm sz c.size, BitVec.add_assoc]
  have hendnat : (p + sz - 4).toNat + 4 = p.toNat + sz.toNat := by
    have h4 : (4 : Addr).toNat = 4 := rfl
    rw [BitVec.toNat_sub, BitVec.toNat_add, h4]
    omega
  have heq : freePrev s.heap s.mem p
      = (s.mem.store64 c.addr (sz + c.size)).store32 (p + sz - 4)
        ((sz + c.size).setWidth 32 ||| nextAllocatedBit) := by
    unfold freePrev
    rw [if_neg (fun h => hne ((hl.first_iff p).mp h)),
      if_neg (fun h => h hthis)]
    simp only [← hsize, ← haddr, hload, hi.marks.sizes c hc, hend]
  have hw : Within [span64 c.addr, (p.toNat, sz.toNat)] s.mem
      (freePrev s.heap s.mem p) := by
    rw [heq]
    refine (within_store64 List.mem_cons_self (Nat.le_refl _)
      (Nat.le_refl _) _ _).trans
      (within_store32 (List.mem_cons_of_mem _ List.mem_cons_self) ?_ ?_ _ _)
    all_goals simp only; omega
  have hsized : (freePrev s.heap s.mem p).load64 c.addr = sz + c.size := by
    rw [heq, Agree.load64 (agree_store32 ?_ _ _)]
    · exact load64_store64 _ _ _
    · left
      unfold span64 span32
      simp only
      omega
  rw [hpnat] at hi hw
  obtain ⟨hinv, hkeep⟩ := hi.grow hsum hw hsized
  rw [← hpnat] at hw
  refine ⟨hinv, hkeep, hw, ?_⟩
  rw [heq]
  exact load32_store32 _ _ _

-- ================================================================= free

/-- A large allocation given back. -/
theorem Inv.freeLarge_ok {b : Alloc} (hi : Inv k s live free [])
    (hb : b ∈ live) (hlarge : b.Large k) :
    Inv k (freeLarge s b.p (calcAllocSize b.n)) (live.erase b) free []
      ∧ ∀ q ∈ pieces k (live.erase b) free [],
        Agree q s.mem (freeLarge s b.p (calcAllocSize b.n)).mem := by
  have hl := hi.layout
  obtain ⟨_, _, hmem⟩ := (hl.allocs b hb).large hlarge
  have hph : b.p &&& s.heap.pfnMask = b.p - sizeofPageHeader := by
    have hpage := hl.page_of hmem
    unfold Alloc.region at hpage
    rwa [BitVec.sub_add_cancel] at hpage
  have hfree : freeLarge s b.p (calcAllocSize b.n)
      = ⟨delPage s.mem (b.p - sizeofPageHeader), { s.os with
        mapped := s.os.mapped.erase (b.region k) }, s.heap⟩ := by
    unfold freeLarge freePage Alloc.region
    simp only [hph, hl.pageSize]
  rw [hfree]
  exact hi.unmap hb hlarge

/-- What `npr_heap_free` relies on for a small allocation: the tags at
both ends say what is there, and there is room for the links. -/
structure Returnable (k : Nat) (s : Sys) (free : List Chunk) (p : Addr)
    (a : Size) : Prop where
  next : (p + a).toNat % 2 ^ k = 0
    ∨ s.mem.load32 (p + a - 4) &&& nextAllocatedBit ≠ 0
    ∨ ∃ c ∈ free, c.addr = p + a
  prev : p.toNat % 2 ^ k = 32
    ∨ (∀ c ∈ free, c.size.toNat = 24 →
        c.addr.toNat + c.size.toNat ≠ p.toNat)
      ∧ (s.mem.load32 (p - 4) &&& thisAllocatedBit ≠ 0
        ∨ ∃ c ∈ free,
          c.addr = p - (s.mem.load32 (p - 4) &&& sizeMask).setWidth 64
          ∧ c.size = (s.mem.load32 (p - 4) &&& sizeMask).setWidth 64)
  size : 24 ≤ a.toNat
    ∨ (p + a).toNat % 2 ^ k ≠ 0
      ∧ s.mem.load32 (p + a - 4) &&& nextAllocatedBit = 0
    ∨ p.toNat % 2 ^ k ≠ 32
      ∧ s.mem.load32 (p - 4) &&& thisAllocatedBit = 0

/-- The tag in front of a chunk given back, after the part about the
chunk behind. -/
theorem Behind.front {free' : List Chunk} {p : Addr} {a sz : Size}
    {m : ByteMem} (h : Behind k s live free free' p a sz m)
    (hne : p.toNat % 2 ^ k ≠ 32)
    (hno : ∀ c ∈ free, c.size.toNat = 24 →
      c.addr.toNat + c.size.toNat ≠ p.toNat) :
    m.load32 (p - 4) = s.mem.load32 (p - 4)
      ∧ (∀ c ∈ free', c ∈ free) := by
  have hsub : ∀ c ∈ free', c ∈ free := by
    intro c hc
    rcases h.extent with ⟨_, rfl, _⟩ | ⟨_, l₁, d, l₂, rfl, rfl, _⟩
    · exact hc
    · exact mem_insert.mpr (.inr hc)
  have hl := h.inv.layout
  have hheld : (p.toNat, sz.toNat) ∈ [(p.toNat, sz.toNat)] :=
    List.mem_cons_self
  obtain ⟨hslot, r, hr, hin⟩ :=
    hl.slot_inside (f := p) (Layout.held_mem hheld) rfl hne
  obtain ⟨hhead, htail, hfree⟩ := hl.slot_apart (Layout.held_mem hheld)
    (by simp only; omega) hr hin (by
      intro c hc hc24 heq
      exact hno c (hsub c hc) hc24 (by omega))
  refine ⟨Agree.load32 (h.out _ hhead htail (fun c hc => ?_)
    fun q hq => ?_), hsub⟩
  · have hc := hfree c hc
    rw [freeSpan_eq]
    unfold Apart at *
    simp only at *
    omega
  · rw [List.mem_singleton.mp hq]
    left
    unfold span32
    simp only
    omega

/-- A free chunk elsewhere is still free. -/
theorem Behind.mem {free' : List Chunk} {p : Addr} {a sz : Size}
    {m : ByteMem} (h : Behind k s live free free' p a sz m) {c : Chunk}
    (hc : c ∈ free) (hne : c.addr ≠ p + a) : c ∈ free' := by
  rcases h.extent with ⟨_, rfl, _⟩ | ⟨_, l₁, d, l₂, rfl, rfl, hd, _⟩
  · exact hc
  · exact (mem_insert.mp hc).resolve_left fun heq => hne (heq ▸ hd)

/-- The chunk in hand is no smaller than the one given back, and larger
by the one it took in. -/
theorem Behind.size {live' : List Alloc} {free' : List Chunk} {b : Alloc}
    {sz : Size} {m : ByteMem}
    (h : Behind k s live' free free' b.p (calcAllocSize b.n) sz m)
    (hl : Layout k s.heap s.os live free []) (hb : b ∈ live)
    (hsmall : ¬ b.Large k) :
    16 ≤ sz.toNat ∧ free'.length ≤ free.length
      ∧ (((b.p + calcAllocSize b.n).toNat % 2 ^ k = 0
          ∨ s.mem.load32 (b.p + calcAllocSize b.n - 4)
            &&& nextAllocatedBit ≠ 0) ∧ sz = calcAllocSize b.n
        ∨ 24 ≤ sz.toNat) := by
  obtain ⟨hat, _, h16⟩ := hl.behind_toNat hb hsmall
  rcases h.extent with ⟨hlast, rfl, rfl⟩ | ⟨_, l₁, d, l₂, rfl, rfl, hd, rfl⟩
  · exact ⟨h16, Nat.le_refl _, .inl ⟨hlast, rfl⟩⟩
  · have hmem : d ∈ l₁ ++ d :: l₂ := by simp
    have h24 := hl.freeSize d hmem
    obtain ⟨_, hhi, _⟩ := hl.piece_bounds (Layout.free_mem hmem)
    have hsum : (calcAllocSize b.n + d.size).toNat
        = (calcAllocSize b.n).toNat + d.size.toNat := by
      unfold Chunk.span at hhi
      rw [hd, hat] at hhi
      simp only at hhi
      rw [BitVec.toNat_add]
      omega
    rw [hsum, List.length_append, List.length_append, List.length_cons]
    omega

/-- `npr_heap_free`. -/
theorem Inv.heapFree_ok {b : Alloc} (hi : Inv k s live free [])
    (hb : b ∈ live)
    (hret : ¬ b.Large k → Returnable k s free b.p (calcAllocSize b.n)) :
    ∃ s' free', heapFree s b.p b.n = .ok s'
      ∧ Inv k s' (live.erase b) free' []
      ∧ free'.length ≤ free.length + 1
      ∧ ∀ b' ∈ live.erase b, Agree b'.payload s.mem s'.mem := by
  have hl := hi.layout
  unfold heapFree
  rw [hl.pageSize]
  by_cases hlarge : b.Large k
  · obtain ⟨hinv, hagree⟩ := hi.freeLarge_ok hb hlarge
    have hbig : IsLarge (pageOf k) (calcAllocSize b.n) := hlarge
    simp only [if_pos hbig]
    exact ⟨_, free, rfl, hinv, Nat.le_succ _,
      hinv.layout.payload_agree hagree⟩
  · obtain ⟨hnext, hprev, hsize⟩ := hret hlarge
    have hsmall : ¬ IsLarge (pageOf k) (calcAllocSize b.n) := hlarge
    simp only [if_neg hsmall]
    obtain ⟨m, free', sz, hm, hbehind⟩ :=
      hi.freeNext_ok (n := b.n) rfl hb hsmall hnext
    rw [hm]
    have hpay := hbehind.out.payload hbehind.inv.layout
    -- what is in hand is large enough for the list, or joins the chunk in
    -- front
    obtain ⟨h16, hlen, hgrown⟩ := hbehind.size hl hb hlarge
    have hroom : 24 ≤ sz.toNat ∨ b.p.toNat % 2 ^ k ≠ 32
        ∧ s.mem.load32 (b.p - 4) &&& thisAllocatedBit = 0 := by
      rcases hgrown with ⟨hlast, rfl⟩ | hgrown
      · rcases hsize with h24 | ⟨hne, hzero⟩ | hgrow
        · exact .inl h24
        · rcases hlast with hlast | hlast
          · exact absurd hlast hne
          · exact absurd hzero hlast
        · exact .inr hgrow
      · exact .inl hgrown
    by_cases hfirst : b.p.toNat % 2 ^ k = 32
    · have h24 := hroom.resolve_right fun h => h.1 hfirst
      obtain ⟨hinv, hout⟩ :=
        hbehind.inv.freePrev_first hbehind.load h24 hfirst
      have hheld := hout.chunk (q := (b.p.toNat, sz.toNat)) (Nat.le_refl _)
        (by simp only; omega)
      refine ⟨_, free' ++ [⟨b.p, sz⟩], rfl, hinv, ?_, fun b' hb' =>
        (hpay b' hb').trans (hheld.payload hbehind.inv.layout b' hb')⟩
      rw [List.length_append]
      exact Nat.add_le_add_right hlen 1
    · obtain ⟨hno, hfront⟩ := hprev.resolve_left hfirst
      obtain ⟨hword, hsub⟩ := hbehind.front hfirst hno
      have hno' : ∀ c ∈ free', c.size.toNat = 24 →
          c.addr.toNat + c.size.toNat ≠ b.p.toNat := fun c hc =>
        hno c (hsub c hc)
      by_cases hthis : s.mem.load32 (b.p - 4) &&& thisAllocatedBit = 0
      · obtain ⟨c, hc, haddr, hcsize⟩ := hfront.resolve_left
          fun hne => hne hthis
        have hmem : c ∈ free' := by
          refine hbehind.mem hc fun hda => ?_
          have h24 := hl.freeSize c hc
          have hat := (hl.behind_toNat hb hlarge).1
          obtain ⟨_, hhi, _⟩ := hl.piece_bounds (Layout.free_mem hc)
          rw [← hcsize] at haddr
          have hback := congrArg BitVec.toNat haddr
          unfold Chunk.span at hhi
          rw [BitVec.toNat_sub] at hback
          rw [← hda] at hat
          simp only at hhi
          omega
        obtain ⟨l₁, l₂, rfl⟩ := List.append_of_mem hmem
        rw [← hword] at haddr hcsize hthis
        obtain ⟨hinv, hkeep, _⟩ := hbehind.inv.freePrev_grow hbehind.load
          h16 hfirst hthis haddr hcsize
        refine ⟨_, _, rfl, hinv, ?_, fun b' hb' =>
          (hpay b' hb').trans (hkeep b' hb')⟩
        simp only [List.length_append, List.length_cons] at hlen ⊢
        omega
      · have h24 := hroom.resolve_right fun h => hthis h.2
        rw [← hword] at hthis
        obtain ⟨hinv, hkeep, _⟩ := hbehind.inv.freePrev_enter hbehind.load
          h24 hfirst hthis hno'
        refine ⟨_, free' ++ [⟨b.p, sz⟩], rfl, hinv, ?_, fun b' hb' =>
          (hpay b' hb').trans (hkeep b' hb')⟩
        rw [List.length_append]
        exact Nat.add_le_add_right hlen 1

end

end UdeBench.Npr.FirstFit
