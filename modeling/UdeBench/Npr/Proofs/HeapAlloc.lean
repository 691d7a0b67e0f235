/-
`npr_heap_alloc` and the heap of Chunks: the search of the free list,
what is done to the chunk it finds, a new page, and a region of its own
for a large allocation.

The part from `found` on is cut in three: the tag of the new chunk, the
rest of the chunk put into the free list, the bit in the tag in front.
-/
import UdeBench.Lib.Yields
import UdeBench.Npr.Proofs.Regions

namespace UdeBench.Npr.FirstFit

open Spans ByteMem

-- =============================================================== search

section
variable {k : Nat} {live : List Alloc} {free : List Chunk}
  {held : List Span} {s : Sys}

/-- The search finds the first chunk that is large enough. Induction on
the list. -/
theorem firstFit_linked {h : Heap} {m : ByteMem} (a : Size) :
    ∀ (free : List Chunk) (fuel : Nat) {x : Addr},
      DList.Linked freeLinks m (x :: (free.map Chunk.addr ++ [h.freeTail])) →
      (∀ c ∈ free, m.load64 c.addr = c.size) → free.length < fuel →
      (firstFit h m a fuel (DList.next freeLinks m x) = .ok none
        ∧ ∀ c ∈ free, c.size.toNat < a.toNat)
      ∨ ∃ l₁ c l₂, free = l₁ ++ c :: l₂
        ∧ firstFit h m a fuel (DList.next freeLinks m x) = .ok (some c.addr)
        ∧ a.toNat ≤ c.size.toNat ∧ ∀ d ∈ l₁, d.size.toNat < a.toNat := by
  intro free
  induction free with
  | nil =>
      intro fuel x hl _ hfuel
      have hnext := (List.isChain_cons_cons.mp hl.links).1.1
      obtain ⟨fuel, rfl⟩ := Nat.exists_eq_succ_of_ne_zero
        (Nat.ne_of_gt hfuel)
      left
      rw [hnext, firstFit, if_pos rfl]
      exact ⟨rfl, fun c hc => by cases hc⟩
  | cons c free ih =>
      intro fuel x hl hsizes hfuel
      rw [List.length_cons] at hfuel
      obtain ⟨hspread, hspace, hlinks⟩ := hl
      rw [List.map_cons, List.cons_append] at hspread hspace hlinks
      obtain ⟨⟨hnext, _⟩, hlinks⟩ := List.isChain_cons_cons.mp hlinks
      have hspread := (List.pairwise_cons.mp hspread).2
      have hne : c.addr ≠ h.freeTail := by
        intro heq
        have hself := (List.pairwise_cons.mp hspread).1 h.freeTail (by simp)
        rw [heq] at hself
        exact DList.not_apart_self _ hself
      obtain ⟨fuel, rfl⟩ := Nat.exists_eq_succ_of_ne_zero
        (show fuel ≠ 0 by omega)
      have hsize := hsizes c List.mem_cons_self
      rw [hnext, firstFit, if_neg hne, hsize]
      by_cases hfit : a ≤ c.size
      · right
        rw [if_pos hfit]
        exact ⟨[], c, free, rfl, rfl, hfit, fun d hd => by cases hd⟩
      · have hlt : c.size.toNat < a.toNat := Nat.lt_of_not_le hfit
        rw [if_neg hfit]
        rcases ih fuel ⟨hspread, fun b hb =>
          hspace b (List.mem_cons_of_mem _ hb), hlinks⟩
          (fun d hd => hsizes d (List.mem_cons_of_mem _ hd)) (by omega) with
          ⟨hnone, hall⟩ | ⟨l₁, d, l₂, rfl, hsome, hle, hall⟩
        · left
          refine ⟨hnone, fun d hd => ?_⟩
          rcases List.mem_cons.mp hd with rfl | hd
          · exact hlt
          · exact hall d hd
        · right
          refine ⟨c :: l₁, d, l₂, rfl, hsome, hle, fun b hb => ?_⟩
          rcases List.mem_cons.mp hb with rfl | hb
          · exact hlt
          · exact hall b hb

theorem Inv.firstFit_ok (hi : Inv k s live free held) {fuel : Nat}
    (hfuel : free.length < fuel) (a : Size) :
    (firstFit s.heap s.mem a fuel (DList.next freeLinks s.mem
          s.heap.freeHead) = .ok none
        ∧ ∀ c ∈ free, c.size.toNat < a.toNat)
      ∨ ∃ l₁ c l₂, free = l₁ ++ c :: l₂
        ∧ firstFit s.heap s.mem a fuel (DList.next freeLinks s.mem
          s.heap.freeHead) = .ok (some c.addr)
        ∧ a.toNat ≤ c.size.toNat ∧ ∀ d ∈ l₁, d.size.toNat < a.toNat :=
  firstFit_linked a free fuel hi.list hi.marks.sizes hfuel

-- ================================================================ found

/-- What is left of a chunk that `a` bytes are taken from. -/
def Chunk.rest (c : Chunk) (a : Size) : List Chunk :=
  if a < c.size then [⟨c.addr + a, c.size - a⟩] else []

theorem Chunk.mem_rest {c d : Chunk} {a : Size} (hd : d ∈ c.rest a) :
    a < c.size ∧ d = ⟨c.addr + a, c.size - a⟩ := by
  unfold rest at hd
  by_cases hlt : a < c.size
  · rw [if_pos hlt] at hd
    exact ⟨hlt, List.mem_singleton.mp hd⟩
  · rw [if_neg hlt] at hd
    cases hd

/-- The tag of the new chunk. -/
def foundTag (m : ByteMem) (f : Addr) (a : Size) : ByteMem :=
  m.store32 (f + a - 4) (a.setWidth 32 ||| thisAllocatedBit)

/-- The rest of the chunk put into the free list. -/
def foundRest (h : Heap) (m : ByteMem) (f : Addr) (a : Size) : ByteMem :=
  if a < m.load64 f then
    addFree h (m.store64 (f + a) (m.load64 f - a)) (f + a)
  else m

/-- The bit in the tag in front. -/
def foundNext (h : Heap) (m : ByteMem) (f : Addr) : ByteMem :=
  if h.pageOffset f ≠ sizeofPageHeader then
    m.store32 (f - 4) (m.load32 (f - 4) ||| nextAllocatedBit)
  else m

theorem found_eq (h : Heap) (m : ByteMem) (f : Addr) (a : Size) :
    found h m f a
      = foundNext h (foundRest h (foundTag m f a) f a) f := rfl

/-- A piece of a chunk's front, as addresses. -/
theorem Layout.front_toNat {h : Heap} {os : Os}
    (hl : Layout k h os live free held) {c : Chunk}
    (hc : c.span ∈ pieces k live free held) {a : Size}
    (hle : a.toNat ≤ c.size.toNat) :
    (c.addr + a).toNat = c.addr.toNat + a.toNat
      ∧ (4 ≤ a.toNat → (c.addr + a - 4).toNat + 4
        = c.addr.toNat + a.toNat) := by
  obtain ⟨_, hhi, _⟩ := hl.piece_bounds hc
  have h4 : (4 : Addr).toNat = 4 := rfl
  unfold Chunk.span at hhi
  simp only at hhi
  rw [BitVec.toNat_sub, BitVec.toNat_add, h4]
  omega

/-- The tag is written at the end of the front. -/
theorem Inv.foundTag_ok {c : Chunk} {a : Size}
    (hi : Inv k s live free (c.span :: held))
    (hload : s.mem.load64 c.addr = c.size) (h16 : 16 ≤ a.toNat)
    (hle : a.toNat ≤ c.size.toNat) :
    Inv k { s with mem := foundTag s.mem c.addr a } live free
        (c.span :: held)
      ∧ Within [c.span] s.mem (foundTag s.mem c.addr a)
      ∧ (foundTag s.mem c.addr a).load64 c.addr = c.size
      ∧ (foundTag s.mem c.addr a).load32 (c.addr + a - 4)
        = a.setWidth 32 ||| thisAllocatedBit := by
  obtain ⟨_, htag⟩ := hi.layout.front_toNat
    (Layout.held_mem List.mem_cons_self) hle
  have htag := htag (by omega)
  have hw : Within [c.span] s.mem (foundTag s.mem c.addr a) := by
    refine within_store32 List.mem_cons_self ?_ ?_ _ _
    all_goals unfold Chunk.span; simp only; omega
  refine ⟨(hi.write (hw.mono fun x hx => ?_)).1, hw, ?_,
    load32_store32 _ _ _⟩
  · rw [List.mem_singleton.mp hx]
    exact ⟨_, List.mem_cons_self, Nat.le_refl _, Nat.le_refl _⟩
  · rw [← hload]
    apply Agree.load64
    apply agree_store32
    left
    unfold span64 span32
    simp only
    omega

/-- The front of a chunk goes to the program. -/
theorem Inv.adopt_small {f : Addr} {n a : Size} (ha : calcAllocSize n = a)
    (hi : Inv k s live free ((f.toNat, a.toNat) :: held))
    (hn : n.toNat + 11 < 2 ^ 64) (hsmall : ¬ IsLarge (pageOf k) a)
    (h16 : 16 ≤ a.toNat)
    (htag : s.mem.load32 (f + a - 4) = a.setWidth 32 ||| thisAllocatedBit) :
    Inv k s (⟨f, n⟩ :: live) free held := by
  subst ha
  have hlarge : ¬ Alloc.Large k ⟨f, n⟩ := hsmall
  have hpage := page_bounds hi.layout.shift
  rw [isLarge_iff hi.layout.shift] at hsmall
  refine Inv.adopt (a := ⟨f, n⟩) ?_
    ⟨hn, fun _ => h16, fun h => absurd h hlarge⟩ fun _ => ?_
  · rw [Alloc.chunk_small k hlarge]
    exact hi
  · show s.mem.load32 (f + calcAllocSize n - 4) &&& tagMask = _
    rw [htag]
    exact (and_tagMask (by omega)).2

/-- The rest goes to the free list, with its size and its links in its
first 24 bytes. -/
theorem Inv.foundRest_split {c : Chunk} {n a : Size}
    (ha : calcAllocSize n = a) (hi : Inv k s live free (c.span :: held))
    (hload : s.mem.load64 c.addr = c.size)
    (hn : n.toNat + 11 < 2 ^ 64) (hsmall : ¬ IsLarge (pageOf k) a)
    (h16 : 16 ≤ a.toNat) (h24 : a.toNat + 24 ≤ c.size.toNat)
    (htag : s.mem.load32 (c.addr + a - 4)
      = a.setWidth 32 ||| thisAllocatedBit) :
    Inv k { s with mem := foundRest s.heap s.mem c.addr a }
        (⟨c.addr, n⟩ :: live) (free ++ c.rest a) held
      ∧ OffLinks s.heap free [(c.addr.toNat + a.toNat, 24)] s.mem
        (foundRest s.heap s.mem c.addr a) := by
  have hmod : a.toNat % 8 = 0 := by
    rw [← ha]
    exact (calcAllocSize_bounds hn).2
  have hlt' : a.toNat < c.size.toNat := by omega
  have hlt : a < c.size := hlt'
  unfold foundRest Chunk.rest
  rw [hload, if_pos hlt, if_pos hlt]
  obtain ⟨hback, _⟩ := hi.layout.front_toNat
    (Layout.held_mem List.mem_cons_self) (Nat.le_of_lt hlt')
  have hsize : (c.size - a).toNat = c.size.toNat - a.toNat :=
    BitVec.toNat_sub_of_le (BitVec.le_of_lt hlt)
  have hspan : Chunk.span ⟨c.addr + a, c.size - a⟩
      = (c.addr.toNat + a.toNat, c.size.toNat - a.toNat) := by
    unfold Chunk.span
    rw [hback, hsize]
  have hcut : c.span = (c.addr.toNat, a.toNat
      + (c.size.toNat - a.toNat)) := by
    unfold Chunk.span
    congr 1
    omega
  rw [hcut] at hi
  have hadopted := (hi.split (by omega) (by omega) hmod).adopt_small ha hn
    hsmall h16 htag
  rw [← hspan] at hadopted
  -- its size, and then its links
  have hw : Within [(c.addr.toNat + a.toNat, 24)] s.mem
      (s.mem.store64 (c.addr + a) (c.size - a)) := by
    refine within_store64 List.mem_cons_self ?_ ?_ _ _
    all_goals simp only; omega
  obtain ⟨hsized, _⟩ := hadopted.write (hw.mono fun x hx => by
    rw [List.mem_singleton.mp hx]
    refine ⟨_, List.mem_cons_self, Nat.le_of_eq (by rw [hspan]), ?_⟩
    rw [hspan]
    simp only
    omega)
  obtain ⟨hput, hout⟩ := hsized.put (by simp only; omega)
    (load64_store64 _ _ _)
  refine ⟨hput, OffLinks.trans (fun t _ _ _ hq => hw t hq)
    (hout.chunk ?_ ?_)⟩
  all_goals simp only; omega

/-- The rest, if there is one. -/
theorem Inv.foundRest_ok {c : Chunk} {n a : Size}
    (ha : calcAllocSize n = a) (hi : Inv k s live free (c.span :: held))
    (hload : s.mem.load64 c.addr = c.size)
    (hn : n.toNat + 11 < 2 ^ 64) (hsmall : ¬ IsLarge (pageOf k) a)
    (h16 : 16 ≤ a.toNat)
    (hfit : c.size = a ∨ a.toNat + 24 ≤ c.size.toNat)
    (htag : s.mem.load32 (c.addr + a - 4)
      = a.setWidth 32 ||| thisAllocatedBit) :
    Inv k { s with mem := foundRest s.heap s.mem c.addr a }
        (⟨c.addr, n⟩ :: live) (free ++ c.rest a) held
      ∧ OffLinks s.heap free [(c.addr.toNat + a.toNat,
          c.size.toNat - a.toNat)] s.mem
        (foundRest s.heap s.mem c.addr a) := by
  by_cases h24 : a.toNat + 24 ≤ c.size.toNat
  · obtain ⟨hinv, hout⟩ :=
      hi.foundRest_split ha hload hn hsmall h16 h24 htag
    refine ⟨hinv, hout.mono (fun d hd => .inl hd) fun q hq => ?_⟩
    rw [List.mem_singleton.mp hq]
    refine ⟨_, List.mem_cons_self, Nat.le_refl _, ?_⟩
    simp only
    omega
  · have hsame : c.size = a := hfit.resolve_right h24
    have hlt : ¬ a < c.size := by
      rw [hsame]
      exact Nat.lt_irrefl _
    unfold foundRest Chunk.rest
    rw [hload, if_neg hlt, if_neg hlt, List.append_nil]
    refine ⟨Inv.adopt_small ha ?_ hn hsmall h16 htag, OffLinks.refl _⟩
    rw [← hsame]
    exact hi

/-- The bit is set in the tag in front, if there is a chunk in front. -/
theorem Inv.foundNext_ok {f : Addr} {q : Span} (hi : Inv k s live free held)
    (hq : q ∈ pieces k live free held) (hf : q.1 = f.toNat)
    (hno : f.toNat % 2 ^ k = 32 ∨ ∀ c ∈ free, c.size.toNat = 24 →
      c.addr.toNat + c.size.toNat ≠ f.toNat) :
    Inv k { s with mem := foundNext s.heap s.mem f } live free held
      ∧ (∀ a ∈ live, Agree a.payload s.mem (foundNext s.heap s.mem f))
      ∧ Within [(f.toNat - 4, 4)] s.mem (foundNext s.heap s.mem f)
      ∧ (f.toNat % 2 ^ k ≠ 32 →
        (foundNext s.heap s.mem f).load32 (f - 4)
          = s.mem.load32 (f - 4) ||| nextAllocatedBit) := by
  have hoffset := hi.layout.first_iff f
  unfold foundNext
  by_cases hfirst : s.heap.pageOffset f = sizeofPageHeader
  · rw [if_neg (fun hne => hne hfirst)]
    exact ⟨hi, fun a _ => Agree.refl _ _, Within.refl _ _,
      fun hne => absurd (hoffset.mp hfirst) hne⟩
  · rw [if_pos hfirst]
    have hne : f.toNat % 2 ^ k ≠ 32 := fun heq => hfirst (hoffset.mpr heq)
    obtain ⟨hslot, r, hr, hin⟩ := hi.layout.slot_inside hq hf hne
    obtain ⟨hi', hkeep⟩ := hi.slot (x := f - 4)
      (v := s.mem.load32 (f - 4) ||| nextAllocatedBit) hq (by omega) hr hin
      (by
        intro c hc h24 heq
        rcases hno with hno | hno
        · exact hne hno
        · exact hno c hc h24 (by omega))
      (or_nextAllocated _)
    refine ⟨hi', hkeep, ?_, fun _ => load32_store32 _ _ _⟩
    refine within_store32 List.mem_cons_self ?_ ?_ _ _
    all_goals simp only; omega

/-- The part from `found` on, of a chunk in hand. -/
theorem Inv.found_ok {c : Chunk} {n a : Size} (ha : calcAllocSize n = a)
    (hi : Inv k s live free (c.span :: held))
    (hload : s.mem.load64 c.addr = c.size)
    (hn : n.toNat + 11 < 2 ^ 64) (hsmall : ¬ IsLarge (pageOf k) a)
    (h16 : 16 ≤ a.toNat)
    (hfit : c.size = a ∨ a.toNat + 24 ≤ c.size.toNat)
    (hno : c.addr.toNat % 2 ^ k = 32 ∨ ∀ d ∈ free, d.size.toNat = 24 →
      d.addr.toNat + d.size.toNat ≠ c.addr.toNat) :
    Inv k { s with mem := found s.heap s.mem c.addr a } (⟨c.addr, n⟩ :: live)
        (free ++ c.rest a) held
      ∧ OffLinks s.heap free [c.span, (c.addr.toNat - 4, 4)] s.mem
        (found s.heap s.mem c.addr a)
      ∧ (∀ b ∈ live, Agree b.payload s.mem (found s.heap s.mem c.addr a))
      ∧ (found s.heap s.mem c.addr a).load32 (c.addr + a - 4)
        = a.setWidth 32 ||| thisAllocatedBit
      ∧ (c.addr.toNat % 2 ^ k ≠ 32 →
        (found s.heap s.mem c.addr a).load32 (c.addr - 4)
          = s.mem.load32 (c.addr - 4) ||| nextAllocatedBit) := by
  have hl := hi.layout
  have hcs : c.span ∈ c.span :: held := List.mem_cons_self
  have hle : a.toNat ≤ c.size.toNat := by
    rcases hfit with hfit | hfit
    · exact Nat.le_of_eq (congrArg BitVec.toNat hfit.symm)
    · omega
  obtain ⟨_, htag⟩ := hl.front_toNat (Layout.held_mem hcs) hle
  have htag := htag (by omega)
  obtain ⟨h₁, hw₁, hload₁, htag₁⟩ := hi.foundTag_ok hload h16 hle
  obtain ⟨h₂, hout₂⟩ := h₁.foundRest_ok ha hload₁ hn hsmall h16 hfit htag₁
  have hchunk : Alloc.chunk k ⟨c.addr, n⟩ = (c.addr.toNat, a.toNat) := by
    rw [Alloc.chunk_small k (by subst ha; exact hsmall), ha]
  have hq : (c.addr.toNat, a.toNat) ∈ pieces k (⟨c.addr, n⟩ :: live)
      (free ++ c.rest a) held := by
    rw [← hchunk]
    exact Layout.chunk_mem List.mem_cons_self
  have hrest : ∀ d ∈ c.rest a,
      d.addr.toNat + d.size.toNat ≠ c.addr.toNat := by
    intro d hd
    obtain ⟨_, rfl⟩ := Chunk.mem_rest hd
    have hfront := (hl.front_toNat (Layout.held_mem hcs) hle).1
    simp only
    omega
  obtain ⟨h₃, hkeep₃, hw₃, hslot₃⟩ := h₂.foundNext_ok (f := c.addr) hq rfl (by
    rcases hno with hno | hno
    · exact .inl hno
    · right
      intro d hd h24
      rcases List.mem_append.mp hd with hd | hd
      · exact hno d hd h24
      · exact hrest d hd)
  -- all changes are in the chunk, the links, and the word in front
  have hout₁₂ : OffLinks s.heap free [c.span] s.mem
      (foundRest s.heap (foundTag s.mem c.addr a) c.addr a) := by
    refine OffLinks.trans (fun t _ _ _ hq => hw₁ t hq) ?_
    refine hout₂.mono (fun d hd => .inl hd) fun q hq => ?_
    rw [List.mem_singleton.mp hq]
    refine ⟨c.span, List.mem_cons_self, ?_, ?_⟩
    all_goals unfold Chunk.span; simp only; omega
  have hout : OffLinks s.heap free [c.span, (c.addr.toNat - 4, 4)] s.mem
      (found s.heap s.mem c.addr a) := by
    refine (hout₁₂.mono (fun d hd => .inl hd) fun q hq => ?_).trans
      (fun t _ _ _ hq => hw₃ t fun x hx => hq x (List.mem_cons_of_mem _ hx))
    rw [List.mem_singleton.mp hq]
    exact ⟨_, List.mem_cons_self, Nat.le_refl _, Nat.le_refl _⟩
  refine ⟨h₃, hout, ?_, ?_, ?_⟩
  · intro b hb
    have hheld : OffLinks s.heap free (c.span :: held) s.mem
        (foundRest s.heap (foundTag s.mem c.addr a) c.addr a) := by
      refine hout₁₂.mono (fun d hd => .inl hd) fun q hq => ?_
      rw [List.mem_singleton.mp hq]
      exact ⟨_, hcs, Nat.le_refl _, Nat.le_refl _⟩
    exact (hheld.payload hl b hb).trans
      (hkeep₃ b (List.mem_cons_of_mem _ hb))
  · -- the tag is in front of the rest, and behind the word in front
    have hword : Agree (span32 (c.addr + a - 4)) (foundTag s.mem c.addr a)
        (found s.heap s.mem c.addr a) := by
      obtain ⟨hhead, htail, hfree⟩ := hl.off_held hcs
        (t := span32 (c.addr + a - 4))
        (by unfold Chunk.span span32; simp only; omega)
        (by unfold Chunk.span span32; simp only; omega)
      refine Agree.trans (hout₂ _ hhead htail hfree ?_) (hw₃ _ ?_)
      · intro x hx
        rw [List.mem_singleton.mp hx]
        left
        unfold span32
        simp only
        omega
      · intro x hx
        rw [List.mem_singleton.mp hx]
        right
        unfold span32
        simp only
        omega
    rw [hword.load32]
    exact htag₁
  · intro hne
    obtain ⟨hslot, r, hr, hin⟩ :=
      hl.slot_inside (f := c.addr) (Layout.held_mem hcs) rfl hne
    obtain ⟨hhead, htail, hfree⟩ := hl.slot_apart (Layout.held_mem hcs)
      (by unfold Chunk.span; simp only; omega) hr hin (by
        intro d hd h24 heq
        rcases hno with hno | hno
        · exact hne hno
        · exact hno d hd h24 (by omega))
    have hword : Agree (span32 (c.addr - 4)) s.mem
        (foundRest s.heap (foundTag s.mem c.addr a) c.addr a) := by
      refine hout₁₂ _ hhead htail ?_ ?_
      · intro d hd
        have hd := hfree d hd
        rw [freeSpan_eq]
        unfold Apart at *
        simp only at *
        omega
      · intro x hx
        rw [List.mem_singleton.mp hx]
        left
        unfold span32 Chunk.span
        simp only
        omega
    rw [found_eq, hslot₃ hne, hword.load32]

-- ============================================================== regions

/-- What a new region of small chunks is: its first chunk in hand. -/
structure Opened (k : Nat) (s s' : Sys) (live : List Alloc)
    (free : List Chunk) (r : Region) (c : Chunk) : Prop where
  fresh : Fresh s.os r
  size : r.size = s.heap.chunkSize.signExtend 64
  page : 2 ^ k ≤ r.size.toNat
  os : s'.os = { s.os with mapped := r :: s.os.mapped
                           calls := s.os.calls + 1 }
  heap : s'.heap = { s.heap with chunkSize := s.heap.chunkSize * 2 }
  span : c.span = (r.base.toNat + 32, r.size.toNat - 32)
  inv : Inv k s' live free [c.span]
  load : s'.mem.load64 c.addr = c.size
  agree : ∀ q ∈ pieces k live free [], Agree q s.mem s'.mem

theorem Opened.first {s' : Sys} {r : Region} {c : Chunk}
    (h : Opened k s s' live free r c) : c.addr.toNat % 2 ^ k = 32 := by
  have hl := h.inv.layout
  have hr : r ∈ s'.os.mapped := by
    rw [h.os]
    exact List.mem_cons_self
  have hpage := page_bounds hl.shift
  have haddr : c.addr.toNat = r.base.toNat + 32 := congrArg Prod.fst h.span
  rw [haddr, Nat.add_mod, (hl.regions r hr).1, Nat.zero_add, Nat.mod_mod]
  exact Nat.mod_eq_of_lt (by omega)

/-- A header written to a fresh region of zeros. -/
theorem header_agree {os : Os} {m : ByteMem} {r : Region}
    (hfresh : Fresh os r) (h32 : 32 ≤ r.size.toNat) (v w : Word) :
    Within [r.span] m ((m.zeroFill r.span).store32 (r.base + 16) v)
      ∧ Within [r.span] m (((m.zeroFill r.span).store32 (r.base + 16)
        v).store32 (r.base + 20) w) := by
  have htop := hfresh.2.2.1
  have h16 : (16 : Addr).toNat = 16 := rfl
  have h20 : (20 : Addr).toNat = 20 := rfl
  have hflags : (r.base + 16).toNat = r.base.toNat + 16 := by
    rw [BitVec.toNat_add, h16]
    omega
  have hsize : (r.base + 20).toNat = r.base.toNat + 20 := by
    rw [BitVec.toNat_add, h20]
    omega
  have hzero : Within [r.span] m (m.zeroFill r.span) := fun t ht =>
    agree_zeroFill (ht _ List.mem_cons_self) m
  have hstore : Within [r.span] m
      ((m.zeroFill r.span).store32 (r.base + 16) v) := by
    refine hzero.trans (within_store32 List.mem_cons_self ?_ ?_ _ _)
    all_goals unfold Region.span; simp only; omega
  refine ⟨hstore, hstore.trans
    (within_store32 List.mem_cons_self ?_ ?_ _ _)⟩
  all_goals unfold Region.span; simp only; omega

/-- The heap after a page has been added. -/
theorem Inv.chunkSize (hi : Inv k s live free held) {v : Word}
    (hv : v.toNat % 2 ^ k = 0) :
    Inv k { s with heap := { s.heap with chunkSize := v } } live free held :=
  ⟨{ hi.layout with chunkSize := hv },
    ⟨hi.marks.sizes, hi.marks.tags, hi.marks.pages⟩, hi.list⟩

/-- A new page, or the system has none. -/
theorem Inv.newPage_ok (hi : Inv k s live free []) (place : Placement) :
    Yields (· = .mmapFailed) (newPage place s) fun x =>
      ∃ r c, c.addr = x.2 ∧ Opened k s x.1 live free r c := by
  have hl := hi.layout
  have hsize := signExtend_mod hl.shift hl.chunkSize
  unfold newPage allocPage
  by_cases hfresh : Fresh s.os
      ⟨place s.os.calls, s.heap.chunkSize.signExtend 64⟩
  · simp only [if_pos hfresh]
    generalize hr : (⟨place s.os.calls, s.heap.chunkSize.signExtend 64⟩
      : Region) = r at *
    have hplace : place s.os.calls = r.base := congrArg Region.base hr
    have hcs : s.heap.chunkSize.signExtend 64 = r.size :=
      congrArg Region.size hr
    rw [hcs] at hsize ⊢
    rw [hplace]
    have hpage : 2 ^ k ≤ r.size.toNat :=
      Nat.le_of_dvd hfresh.1 (Nat.dvd_of_mod_eq_zero hsize)
    have h256 := (page_bounds hl.shift).1
    obtain ⟨hmap, hagree⟩ := hi.map hfresh hsize
      (header_agree hfresh (by omega) 0 0).1
    -- the chunk that fills it
    have htop := hfresh.2.2.1
    have h32 : sizeofPageHeader.toNat = 32 := rfl
    have haddr : (r.base + sizeofPageHeader).toNat = r.base.toNat + 32 := by
      rw [BitVec.toNat_add, h32]
      omega
    have hspan : Chunk.span ⟨r.base + sizeofPageHeader,
        r.size - sizeofPageHeader⟩
        = (r.base.toNat + 32, r.size.toNat - 32) := by
      unfold Chunk.span
      rw [haddr, BitVec.toNat_sub_of_le (show 32 ≤ r.size.toNat by omega)]
      rfl
    rw [← hspan] at hmap
    have hw : Within [Chunk.span ⟨r.base + sizeofPageHeader,
        r.size - sizeofPageHeader⟩] (addPage s.heap
          ((s.mem.zeroFill r.span).store32 (r.base + 16) 0) r.base)
        ((addPage s.heap ((s.mem.zeroFill r.span).store32 (r.base + 16) 0)
          r.base).store64 (r.base + sizeofPageHeader)
            (r.size - sizeofPageHeader)) := by
      refine within_store64 List.mem_cons_self (Nat.le_refl _) ?_ _ _
      rw [hspan, haddr]
      simp only
      omega
    obtain ⟨hsized, hout⟩ := hmap.write hw
    refine Yields.ok ⟨r, ⟨r.base + sizeofPageHeader,
      r.size - sizeofPageHeader⟩, rfl, hfresh, hcs.symm, hpage, rfl, rfl,
      hspan, hsized.chunkSize (double_mod hl.shift hl.chunkSize),
      load64_store64 _ _ _, fun q hq => (hagree q hq).trans (hw q ?_)⟩
    intro x hx
    rw [List.mem_singleton.mp hx, hspan]
    obtain ⟨r', hr', hlo, hhi⟩ := hl.region hq
    have hapart := hfresh.2.2.2.2 r' hr'
    unfold Apart Region.span at *
    simp only at *
    omega
  · simp only [if_neg hfresh]
    exact Yields.error rfl

/-- A large allocation, or the system has no region for it. -/
theorem Inv.allocLarge_ok (hi : Inv k s live free []) {n : Size}
    (hn : n.toNat + 11 < 2 ^ 64)
    (hlarge : IsLarge (pageOf k) (calcAllocSize n))
    (hsum : (calcAllocSize n).toNat + 31 + 2 ^ k < 2 ^ 64)
    (place : Placement) :
    Yields (· = .mmapFailed) (allocLarge place s (calcAllocSize n)) fun x =>
      Inv k x.1 (⟨x.2, n⟩ :: live) free []
        ∧ ∀ q ∈ pieces k live free [], Agree q s.mem x.1.mem := by
  have hl := hi.layout
  obtain ⟨hge, hmod⟩ := largeSize_bounds hl.shift hsum
  unfold allocLarge allocPage
  rw [hl.pageSize]
  by_cases hfresh : Fresh s.os
      ⟨place s.os.calls, largeSize (pageOf k) (calcAllocSize n)⟩
  · simp only [if_pos hfresh]
    generalize hr : (⟨place s.os.calls,
      largeSize (pageOf k) (calcAllocSize n)⟩ : Region) = r at *
    have hplace : place s.os.calls = r.base := congrArg Region.base hr
    have hsize : largeSize (pageOf k) (calcAllocSize n) = r.size :=
      congrArg Region.size hr
    rw [hsize] at hge hmod ⊢
    rw [hplace]
    obtain ⟨hmap, hagree⟩ := hi.map hfresh hmod
      (header_agree hfresh (by omega) nprLargeChunk (r.size.setWidth 32)).2
    have htop := hfresh.2.2.1
    have h32 : sizeofPageHeader.toNat = 32 := rfl
    have haddr : (r.base + sizeofPageHeader).toNat = r.base.toNat + 32 := by
      rw [BitVec.toNat_add, h32]
      omega
    have hregion : Alloc.region k ⟨r.base + sizeofPageHeader, n⟩ = r := by
      unfold Alloc.region
      rw [hsize]
      congr 1
      exact BitVec.add_sub_cancel _ _
    have hbig : Alloc.Large k ⟨r.base + sizeofPageHeader, n⟩ := hlarge
    have hchunk : Alloc.chunk k ⟨r.base + sizeofPageHeader, n⟩
        = (r.base.toNat + 32, r.size.toNat - 32) := by
      rw [Alloc.chunk_large k hbig, hsize, haddr]
    rw [← hchunk] at hmap
    have hok : Alloc.Ok k (r :: s.os.mapped)
        ⟨r.base + sizeofPageHeader, n⟩ := by
      refine ⟨hn, fun hno => absurd hbig hno, fun _ => ⟨hsum, ?_, ?_⟩⟩
      · simp only [haddr]
        omega
      · rw [hregion]
        exact List.mem_cons_self
    exact Yields.ok ⟨hmap.adopt hok fun hno => absurd hbig hno, hagree⟩
  · simp only [if_neg hfresh]
    exact Yields.error rfl

-- ================================================================ alloc

/-- An allocation from a chunk of the free list. -/
theorem Inv.take_found {l₁ l₂ : List Chunk} {c : Chunk} {n a : Size}
    (ha : calcAllocSize n = a) (hi : Inv k s live (l₁ ++ c :: l₂) [])
    (hn : n.toNat + 11 < 2 ^ 64) (hsmall : ¬ IsLarge (pageOf k) a)
    (h16 : 16 ≤ a.toNat)
    (hfit : c.size = a ∨ a.toNat + 24 ≤ c.size.toNat)
    (hno : c.addr.toNat % 2 ^ k = 32 ∨ ∀ d ∈ l₁ ++ l₂, d.size.toNat = 24 →
      d.addr.toNat + d.size.toNat ≠ c.addr.toNat) :
    Inv k { s with mem := found s.heap (delFree s.mem c.addr) c.addr a }
        (⟨c.addr, n⟩ :: live) (l₁ ++ l₂ ++ c.rest a) []
      ∧ OffLinks s.heap (l₁ ++ l₂) [c.span, (c.addr.toNat - 4, 4)] s.mem
        (found s.heap (delFree s.mem c.addr) c.addr a)
      ∧ (∀ b ∈ live, Agree b.payload s.mem
        (found s.heap (delFree s.mem c.addr) c.addr a))
      ∧ (found s.heap (delFree s.mem c.addr) c.addr a).load32
        (c.addr + a - 4) = a.setWidth 32 ||| thisAllocatedBit
      ∧ (c.addr.toNat % 2 ^ k ≠ 32 →
        (found s.heap (delFree s.mem c.addr) c.addr a).load32 (c.addr - 4)
          = s.mem.load32 (c.addr - 4) ||| nextAllocatedBit) := by
  obtain ⟨htaken, htake, hload⟩ := hi.take
  have hl := htaken.layout
  have hcs : c.span ∈ [c.span] := List.mem_cons_self
  obtain ⟨hinv, hout, hkeep, htag, hslot⟩ :=
    htaken.found_ok ha hload hn hsmall h16 hfit hno
  refine ⟨hinv, (htake.mono (fun d hd => .inl hd)
    fun q hq => by cases hq).trans hout, ?_, htag, ?_⟩
  · intro b hb
    have hheld : OffLinks s.heap (l₁ ++ l₂) [c.span] s.mem
        (delFree s.mem c.addr) :=
      htake.mono (fun d hd => .inl hd) fun q hq => by cases hq
    exact (hheld.payload hl b hb).trans (hkeep b hb)
  · intro hne
    obtain ⟨hword, r, hr, hin⟩ :=
      hl.slot_inside (f := c.addr) (Layout.held_mem hcs) rfl hne
    obtain ⟨hhead, htail, hfree⟩ := hl.slot_apart (Layout.held_mem hcs)
      (by unfold Chunk.span; simp only; omega) hr hin (by
        intro d hd h24 heq
        rcases hno with hno | hno
        · exact hne hno
        · exact hno d hd h24 (by omega))
    rw [hslot hne, Agree.load32 (htake _ hhead htail (fun d hd => ?_)
      fun q hq => by cases hq)]
    have hd := hfree d hd
    rw [freeSpan_eq]
    unfold Apart at *
    simp only at *
    omega

/-- An allocation from the first chunk of a new region. -/
theorem Inv.open_found {s' : Sys} {r : Region} {c : Chunk} {n a : Size}
    (ha : calcAllocSize n = a) (hopen : Opened k s s' live free r c)
    (hn : n.toNat + 11 < 2 ^ 64) (hsmall : ¬ IsLarge (pageOf k) a)
    (h16 : 16 ≤ a.toNat) :
    Inv k { s' with mem := found s'.heap s'.mem c.addr a }
        (⟨c.addr, n⟩ :: live) (free ++ c.rest a) []
      ∧ OffLinks s'.heap free [c.span, (c.addr.toNat - 4, 4)] s'.mem
        (found s'.heap s'.mem c.addr a)
      ∧ (∀ b ∈ live, Agree b.payload s'.mem
        (found s'.heap s'.mem c.addr a))
      ∧ (found s'.heap s'.mem c.addr a).load32 (c.addr + a - 4)
        = a.setWidth 32 ||| thisAllocatedBit := by
  have hl := hopen.inv.layout
  have hpage := page_bounds hl.shift
  have hsize : c.size.toNat = r.size.toNat - 32 :=
    congrArg Prod.snd hopen.span
  have hroom := hopen.page
  have hlt := hsmall
  rw [isLarge_iff hl.shift] at hlt
  obtain ⟨hinv, hout, hkeep, htag, _⟩ := hopen.inv.found_ok ha hopen.load hn
    hsmall h16 (.inr (by omega)) (.inl hopen.first)
  exact ⟨hinv, hout, hkeep, htag⟩

/-- `npr_heap_alloc`, where what it takes from leaves a chunk or
nothing. -/
theorem Inv.heapAlloc_ok {n : Size} {fuel : Nat} {place : Placement}
    (hi : Inv k s live free []) (hn : n.toNat + 11 < 2 ^ 64)
    (hfuel : free.length < fuel)
    (hlarge : IsLarge (pageOf k) (calcAllocSize n) →
      (calcAllocSize n).toNat + 31 + 2 ^ k < 2 ^ 64)
    (hsmall : ¬ IsLarge (pageOf k) (calcAllocSize n) →
      16 ≤ (calcAllocSize n).toNat ∧ ∀ l₁ c l₂, free = l₁ ++ c :: l₂ →
        firstFit s.heap s.mem (calcAllocSize n) fuel
          (DList.next freeLinks s.mem s.heap.freeHead) = .ok (some c.addr) →
        (c.size = calcAllocSize n
          ∨ (calcAllocSize n).toNat + 24 ≤ c.size.toNat)
        ∧ (c.addr.toNat % 2 ^ k = 32 ∨ ∀ d ∈ l₁ ++ l₂, d.size.toNat = 24 →
          d.addr.toNat + d.size.toNat ≠ c.addr.toNat)) :
    Yields (· = .mmapFailed) (heapAlloc place fuel s n) fun x =>
      ∃ free', free'.length ≤ free.length + 1
        ∧ Inv k x.1 (⟨x.2, n⟩ :: live) free' []
        ∧ ∀ b ∈ live, Agree b.payload s.mem x.1.mem := by
  have hl := hi.layout
  have hrest : ∀ (c : Chunk) (a : Size), (c.rest a).length ≤ 1 := by
    intro c a
    unfold Chunk.rest
    split
    · exact Nat.le_refl _
    · exact Nat.zero_le _
  unfold heapAlloc
  rw [hl.pageSize]
  by_cases hbig : IsLarge (pageOf k) (calcAllocSize n)
  · simp only [if_pos hbig]
    refine (hi.allocLarge_ok hn hbig (hlarge hbig) place).mono ?_
    rintro x ⟨hinv, hagree⟩
    exact ⟨free, Nat.le_succ _, hinv, hl.payload_agree hagree⟩
  · obtain ⟨h16, hfit⟩ := hsmall hbig
    simp only [if_neg hbig]
    rcases hi.firstFit_ok hfuel (calcAllocSize n) with
      ⟨hnone, _⟩ | ⟨l₁, c, l₂, rfl, hsome, _⟩
    · rw [hnone]
      refine (hi.newPage_ok place).bind ?_
      rintro ⟨s', f⟩ ⟨r, c, rfl, hopen⟩
      obtain ⟨hinv, _, hkeep, _⟩ := Inv.open_found rfl hopen hn hbig h16
      refine Yields.ok ⟨_, ?_, hinv, fun b hb =>
        (hl.payload_agree hopen.agree b hb).trans (hkeep b hb)⟩
      rw [List.length_append]
      exact Nat.add_le_add_left (hrest c _) _
    · obtain ⟨hfit, hno⟩ := hfit l₁ c l₂ rfl hsome
      rw [hsome]
      obtain ⟨hinv, _, hkeep, _⟩ :=
        Inv.take_found rfl hi hn hbig h16 hfit hno
      refine Yields.ok ⟨_, ?_, hinv, hkeep⟩
      have h1 := hrest c (calcAllocSize n)
      simp only [List.length_append, List.length_cons]
      omega

end

end UdeBench.Npr.FirstFit
