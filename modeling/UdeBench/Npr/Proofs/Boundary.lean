/-
The boundary tags of a heap of one page, as long as nothing is taken
from its middle.

# Where the tags are right

`TagsHold` reads the free list and the tags from memory: at every border
of two chunks the last word of the first is its size, the bit of its own
state and the bit of the second's. `npr_heap_free` keeps this, whether it
merges with what is behind, with what is in front, with both or with
none. `npr_heap_alloc` keeps it where the chunk it finds ends its page
(`AtEnd`).

# Where they are not

A chunk with another one behind it, taken whole, gets a tag without the
bit for that one; taken in part, it leaves a rest whose tag has the old
size. So the first allocation that takes from the middle of a page leaves
a wrong tag (`tags_break`). Five calls are enough (`tags_stale`): the
hole of the first of two allocations, reused exactly, forgets the second.
-/
import UdeBench.Npr.Proofs.Integrity
import UdeBench.Npr.Proofs.Merge

namespace UdeBench.Npr.FirstFit

open Spans ByteMem Calls

-- ============================================================== statement

/-- The chunks of a heap, as a reader of its memory finds them. -/
def heapCells (k : Nat) (s : HeapState) : List Cell :=
  cells k s.live (freeChunks s)

/-- What a tag says: the size of a chunk, whether it is allocated, and
whether the one behind it is. -/
def TagSays (tag : Word) (size : Nat) (this next : Bool) : Prop :=
  (tag &&& sizeMask).toNat = size
    ∧ (tag &&& thisAllocatedBit ≠ 0 ↔ this = true)
    ∧ (tag &&& nextAllocatedBit ≠ 0 ↔ next = true)

instance (tag : Word) (size : Nat) (this next : Bool) :
    Decidable (TagSays tag size this next) :=
  inferInstanceAs (Decidable (_ ∧ _ ∧ _))

/-- Every chunk with another one behind it has the tag it should have. -/
def TagsHold (k : Nat) (s : HeapState) : Prop :=
  ∀ x ∈ heapCells k s, ∀ y ∈ heapCells k s,
    y.span.1 = x.span.1 + x.span.2 →
      TagSays (endWord s.sys.mem y.span.1) x.span.2 x.live y.live

instance (k : Nat) (s : HeapState) : Decidable (TagsHold k s) :=
  inferInstanceAs (Decidable (∀ x ∈ heapCells k s, ∀ y ∈ heapCells k s,
    y.span.1 = x.span.1 + x.span.2 → _))

/-- The chunks leave no gap in a region. -/
def Filled (k : Nat) (s : HeapState) : Prop :=
  Covers 32 (s.sys.os.mapped.map Region.span) ((heapCells k s).map Cell.span)

/-- Small allocations, and chunks of 32 bytes or more: the one that is
allocated, and the rest, if there is one. -/
def HeapCall.Roomy (k : Nat) (s : HeapState) : HeapCall → Prop
  | alloc n =>
      ¬ IsLarge (pageOf k) (calcAllocSize n)
        ∧ 32 ≤ (calcAllocSize n).toNat
        ∧ FoundHas (firstFound s (calcAllocSize n)) fun f =>
          s.sys.mem.load64 f = calcAllocSize n
            ∨ (calcAllocSize n).toNat + 32 ≤ (s.sys.mem.load64 f).toNat
  | free _ _ => True
  | write _ _ => True

/-- No second region is opened. -/
def HeapCall.OnePage (s : HeapState) : HeapCall → Prop
  | alloc n => firstFound s (calcAllocSize n) = .ok none →
      s.sys.os.mapped = []
  | free _ _ => True
  | write _ _ => True

/-- Nothing is behind the chunk that an allocation is made from. -/
def HeapCall.AtEnd (k : Nat) (s : HeapState) : HeapCall → Prop
  | alloc n => FoundHas (firstFound s (calcAllocSize n)) fun f =>
      (f + s.sys.mem.load64 f).toNat % 2 ^ k = 0
  | free _ _ => True
  | write _ _ => True

instance (k : Nat) (s : HeapState) : ∀ c : HeapCall, Decidable (c.Roomy k s)
  | .alloc _ => inferInstanceAs (Decidable (_ ∧ _ ∧ FoundHas _ _))
  | .free _ _ => isTrue trivial
  | .write _ _ => isTrue trivial

instance (s : HeapState) : ∀ c : HeapCall, Decidable (c.OnePage s)
  | .alloc _ => inferInstanceAs (Decidable (_ → _))
  | .free _ _ => isTrue trivial
  | .write _ _ => isTrue trivial

instance (k : Nat) (s : HeapState) : ∀ c : HeapCall, Decidable (c.AtEnd k s)
  | .alloc _ => inferInstanceAs (Decidable (FoundHas _ _))
  | .free _ _ => isTrue trivial
  | .write _ _ => isTrue trivial

section
variable {k : Nat} {sys : Sys} {s : HeapState} {live : List Alloc}
  {free : List Chunk} {held : List Span} {place : Placement}

-- ================================================================= tight

/-- A tag says what it was made of, and nothing else. -/
theorem tagWord_says {m n : Nat} {this next this' next' : Bool}
    (hn : n < 2 ^ 30) :
    TagSays (tagWord n this next) m this' next'
      ↔ n = m ∧ this = this' ∧ next = next' := by
  obtain ⟨hsize, hthis, hnext⟩ := tagWord_read hn this next
  unfold TagSays
  rw [hsize, hthis, hnext, ← Bool.eq_iff_iff, ← Bool.eq_iff_iff]

/-- The tags of a heap without gaps, as a reader finds them. -/
theorem Tight.tagsHold (ht : Tight k s.sys s.live free [])
    (hlen : free.length ≤ s.calls) : Filled k s ∧ TagsHold k s := by
  have hcells : heapCells k s = cells k s.live free := by
    unfold heapCells
    rw [freeChunks_eq ht.inv hlen]
  constructor
  · unfold Filled
    rw [hcells]
    refine ht.covers.mono fun q hq => ?_
    rcases piece_cell hq with hq | ⟨z, hz, rfl⟩
    · cases hq
    · exact List.mem_map_of_mem hz
  · intro x hx y hy hadj
    rw [hcells] at hx hy
    rw [ht.tagged x hx y hy hadj, tagWord_says (ht.size_lt (cell_piece hx))]
    exact ⟨rfl, rfl, rfl⟩

/-- What the program writes to its allocations is in front of their
tags. -/
theorem Tight.store8 (ht : Tight k sys live free []) {b : Alloc}
    (hb : b ∈ live) {a : Addr} (hlo : b.p.toNat ≤ a.toNat)
    (hhi : a.toNat < b.p.toNat + b.n.toNat) (v : BitVec 8) :
    Tight k { sys with mem := sys.mem.store8 a v } live free [] := by
  have hinv := ht.inv.store8 hb hlo hhi v
  have hl := ht.layout
  have hlt := (hl.allocs b hb).payload_lt hl.shift
  have hp : (b.chunk k).1 = b.p.toNat := rfl
  refine ⟨⟨hinv.layout, ht.covers, ht.small, ht.big, ?_, ht.lonely,
    ht.regions⟩, hinv⟩
  refine ht.tagged.congr fun x hx y hy hadj => ?_
  rw [hadj]
  have hpiece : x.span ∈ pieces k live free [] := cell_piece hx
  have hbig := ht.big _ hpiece
  obtain ⟨_, htop, _⟩ := hl.piece_bounds hpiece
  apply endWord_agree htop
  apply agree_store8
  by_cases hsame : x.span = b.chunk k
  · rw [hsame]
    right
    show a.toNat + 1 ≤ _
    omega
  · have hapart := hl.apart hpiece (Layout.chunk_mem hb) hsame
    unfold Apart at *
    simp only
    omega

-- ============================================================== one page

/-- At most one region, of one page. -/
def Paged (k : Nat) (s : Sys) : Prop :=
  (s.os.mapped = [] ∧ s.heap.chunkSize = pageOf k)
    ∨ ∃ r, s.os.mapped = [r] ∧ r.size.toNat = 2 ^ k

/-- The borders of the page are those of the region. -/
theorem Paged.borders (hp : Paged k sys)
    (hl : Layout k sys.heap sys.os live free held) {q : Span}
    (hq : q ∈ pieces k live free held) :
    Borders k sys.os q := by
  obtain ⟨r, hr, hlo, hhi⟩ := hl.region hq
  obtain ⟨_, _, hpos, _⟩ := hl.piece_bounds hq
  have hbase := (hl.regions r hr).1
  have hsize : r.size.toNat = 2 ^ k := by
    rcases hp with ⟨hnone, _⟩ | ⟨r', hone, hsize⟩
    · rw [hnone] at hr
      cases hr
    · rw [hone] at hr
      rw [List.mem_singleton.mp hr]
      exact hsize
  unfold Region.span at hlo hhi
  simp only at hlo hhi
  -- the offset in the page is the one from its base
  have hoffset : ∀ t, (r.base.toNat + t) % 2 ^ k = t % 2 ^ k := by
    intro t
    rw [Nat.add_mod, hbase, Nat.zero_add, Nat.mod_mod]
  constructor
  · intro hlast
    refine ⟨r, hr, ?_⟩
    have hmod := hoffset (q.1 + q.2 - r.base.toNat)
    rw [Nat.add_sub_cancel' (by omega), hlast] at hmod
    by_cases hend : q.1 + q.2 - r.base.toNat < 2 ^ k
    · rw [Nat.mod_eq_of_lt hend] at hmod
      omega
    · omega
  · intro hfirst
    refine ⟨r, hr, ?_⟩
    have hmod := hoffset (q.1 - r.base.toNat)
    rw [Nat.add_sub_cancel' (by omega), hfirst,
      Nat.mod_eq_of_lt (by omega)] at hmod
    omega

/-- A page that is opened is the first, and the only one. -/
theorem Served.paged {s s' : Sys} {answer : Except HeapError (Option Addr)}
    {free' : List Chunk} {c : Chunk} {n : Size}
    (h : Served k s s' answer live free free' c n) (hp : Paged k s)
    (hnew : answer = .ok none → s.os.mapped = []) : Paged k s' := by
  have hk := h.tight.layout.shift
  rcases h.source with
    ⟨_, _, _, _, _, hos, hheap⟩ | ⟨hnone, r, _, hos, _, hsize, _⟩
  · unfold Paged
    rw [hos, hheap]
    exact hp
  · right
    have hnone := hnew hnone
    rcases hp with ⟨_, hchunk⟩ | ⟨r', hone, _⟩
    · refine ⟨r, by rw [hos, hnone], ?_⟩
      have hpage := page_bounds hk
      rw [hsize, hchunk, signExtend_pageOf hk, ← BitVec.twoPow_eq,
        BitVec.toNat_twoPow]
      exact Nat.mod_eq_of_lt (by omega)
    · rw [hone] at hnone
      cases hnone

-- ================================================================= steps

/-- A heap of one page between two calls. -/
structure PageInv (k : Nat) (s : HeapState) (free : List Chunk) : Prop where
  calls : free.length ≤ s.calls
  tight : Tight k s.sys s.live free []
  doubling : Doubling s.sys.heap
  paged : Paged k s.sys

/-- A chunk that is found, and ends its page, may be taken from. -/
theorem PageInv.tail (hi : PageInv k s free) {n : Size}
    (hroomy : (HeapCall.alloc n).Roomy k s) (hend : (HeapCall.alloc n).AtEnd k s)
    {c : Chunk} (hc : c ∈ free)
    (hfound : firstFound s (calcAllocSize n) = .ok (some c.addr)) :
    Tail k s.sys c (calcAllocSize n) := by
  have hl := hi.tight.layout
  have hpiece : c.span ∈ pieces k s.live free [] := Layout.free_mem hc
  obtain ⟨_, hroom, hfit⟩ := hroomy
  have hfit := hfit c.addr hfound
  have hlast := hend c.addr hfound
  simp only at hfit hlast
  rw [hi.tight.inv.marks.sizes c hc] at hfit hlast
  rw [(hl.front_toNat hpiece (Nat.le_refl _)).1] at hlast
  obtain ⟨hborder, hfirst⟩ := hi.paged.borders hl hpiece
  exact ⟨hroom, hfit, hborder hlast, hfirst⟩

/-- Every call that takes from the end of the page keeps it. -/
theorem PageInv.step (hi : PageInv k s free) {c : HeapCall}
    (hv : c.Valid s) (hroomy : c.Roomy k s) (hone : c.OnePage s)
    (hend : c.AtEnd k s) :
    Yields (· = .mmapFailed) (c.exec place s) fun s' =>
      ∃ free', PageInv k s' free' := by
  have ht := hi.tight
  cases c with
  | alloc n =>
      unfold HeapCall.exec
      refine Yields.bind (ht.heapAlloc_ok hi.doubling hv
        (Nat.lt_succ_of_le hi.calls) hroomy.1 hroomy.2.1 rfl
        fun c hc hfound => hi.tail hroomy hend hc hfound) ?_
      rintro ⟨sys, p⟩ ⟨free', c, rfl, hserved⟩
      have hlen := hserved.length_le
      have hcalls := hi.calls
      refine Yields.ok ⟨free', by simp only; omega, hserved.tight,
        hserved.doubling hi.doubling, hserved.paged hi.paged hone⟩
  | free p n =>
      have hb : (⟨p, n⟩ : Alloc) ∈ s.live := hv
      obtain ⟨sys, free', hfree, ht', hos, hheap, hlen⟩ :=
        ht.heapFree_ok hb (hi.paged.borders ht.layout (Layout.chunk_mem hb))
      have hcalls := hi.calls
      simp only [HeapCall.exec, hfree]
      refine Yields.ok ⟨free', by simp only; omega, ht', ?_, ?_⟩
      · unfold Doubling
        rw [hheap]
        exact hi.doubling
      · unfold Paged
        rw [hos, hheap]
        exact hi.paged
  | write a v =>
      obtain ⟨b, hb, hlo, hhi⟩ := hv
      exact Yields.ok ⟨free, hi.calls, ht.store8 hb hlo hhi v, hi.doubling,
        hi.paged⟩

-- ========================================================== in the middle

/-- The tag of a chunk in hand, after a change of the links and of what is
off it. -/
theorem Layout.endWord_held {h : Heap} {os : Os} {m m' : ByteMem} {q : Span}
    (hl : Layout k h os live free held) (hq : q ∈ held) (hbig : 32 ≤ q.2)
    {extra : List Span} (hout : OffLinks h free extra m m')
    (hextra : ∀ p ∈ extra, Apart (q.1 + q.2 - 4, 4) p) :
    endWord m' (q.1 + q.2) = endWord m (q.1 + q.2) := by
  have hpiece : q ∈ pieces k live free held := Layout.held_mem hq
  obtain ⟨_, hhi, _⟩ := hl.piece_bounds hpiece
  obtain ⟨hhead, htail⟩ := hl.off_ends (s := (q.1 + q.2 - 4, 4)) hpiece
    (by simp only; omega) (by simp only; omega)
  refine endWord_agree hhi (hout _ hhead htail (fun c hc => ?_) hextra)
  have hapart := hl.held_free hq hc
  apply hl.links_apart hc
  unfold Apart at *
  simp only
  omega

/-- What is left of a chunk keeps the tag of the whole. -/
theorem Inv.found_endWord {c : Chunk} {n a : Size} (ha : calcAllocSize n = a)
    (hi : Inv k sys live free (c.span :: held))
    (hload : sys.mem.load64 c.addr = c.size) (hn : n.toNat + 11 < 2 ^ 64)
    (hsmall : ¬ IsLarge (pageOf k) a) (h16 : 16 ≤ a.toNat)
    (hrest : a.toNat + 32 ≤ c.size.toNat) :
    endWord (found sys.heap sys.mem c.addr a)
        (c.addr.toNat + c.size.toNat)
      = endWord sys.mem (c.addr.toNat + c.size.toNat) := by
  have hl := hi.layout
  have hcs : c.span ∈ c.span :: held := List.mem_cons_self
  obtain ⟨hlo, hhi, _⟩ := hl.piece_bounds (Layout.held_mem hcs)
  obtain ⟨_, htagAddr⟩ :=
    hl.front_toNat (Layout.held_mem hcs) (by omega : a.toNat ≤ c.size.toNat)
  have htagAddr := htagAddr (by omega)
  obtain ⟨hi₁, _, hload₁, htag₁⟩ := hi.foundTag_ok hload h16 (by omega)
  obtain ⟨_, hout₂⟩ :=
    hi₁.foundRest_split ha hload₁ hn hsmall h16 (by omega) htag₁
  unfold Chunk.span at hlo hhi
  simp only at hlo hhi
  -- the new tag, the rest's size and links, and the tag in front are off it
  have htag : endWord (foundTag sys.mem c.addr a)
      (c.addr.toNat + c.size.toNat)
      = endWord sys.mem (c.addr.toNat + c.size.toNat) := by
    refine endWord_agree hhi (agree_store32 ?_ _ _)
    unfold Apart span32
    simp only
    omega
  have hlinks : endWord (foundRest sys.heap (foundTag sys.mem c.addr a)
      c.addr a) (c.span.1 + c.span.2)
      = endWord (foundTag sys.mem c.addr a) (c.span.1 + c.span.2) :=
    hi₁.layout.endWord_held hcs (show 32 ≤ c.size.toNat by omega) hout₂
      fun p hp => by
        rw [List.mem_singleton.mp hp]
        unfold Apart Chunk.span
        simp only
        omega
  have hends : c.span.1 + c.span.2 = c.addr.toNat + c.size.toNat := rfl
  rw [hends] at hlinks
  rw [found_eq, ← htag, ← hlinks]
  unfold foundNext
  split
  · have h4 : (c.addr - 4).toNat + 4 = c.addr.toNat := by
      have hlit : (4 : Addr).toNat = 4 := rfl
      rw [BitVec.toNat_sub, hlit]
      omega
    refine endWord_agree hhi (agree_store32 ?_ _ _)
    unfold Apart span32
    simp only
    omega
  · rfl

/-- It says that the chunk is free and the one behind it allocated, with
the size of both parts together. -/
theorem Tight.rest_endWord {l₁ l₂ : List Chunk} {c : Chunk} {n : Size}
    (ht : Tight k sys live (l₁ ++ c :: l₂) []) (hn : n.toNat + 11 < 2 ^ 64)
    (hsmall : ¬ IsLarge (pageOf k) (calcAllocSize n))
    (h16 : 16 ≤ (calcAllocSize n).toNat)
    (hrest : (calcAllocSize n).toNat + 32 ≤ c.size.toNat) {b : Alloc}
    (hb : b ∈ live)
    (hbehind : (b.chunk k).1 = c.addr.toNat + c.size.toNat) :
    endWord (found sys.heap (delFree sys.mem c.addr) c.addr
        (calcAllocSize n)) (b.chunk k).1
      = tagWord c.size.toNat false true := by
  have hc : c ∈ l₁ ++ c :: l₂ := mem_insert.mpr (.inl rfl)
  have hwas := ht.tagged ⟨c.span, false⟩
    (mem_cells.mpr (.inr ⟨c, hc, rfl⟩)) ⟨b.chunk k, true⟩
    (mem_cells.mpr (.inl ⟨b, hb, rfl⟩)) hbehind
  obtain ⟨htaken, htake, hload⟩ := ht.inv.take
  have hkept : endWord (delFree sys.mem c.addr) (c.span.1 + c.span.2)
      = endWord sys.mem (c.span.1 + c.span.2) :=
    htaken.layout.endWord_held List.mem_cons_self
      (show 32 ≤ c.size.toNat by omega) htake fun p hp => by cases hp
  have hends : c.span.1 + c.span.2 = (b.chunk k).1 := hbehind.symm
  rw [hends] at hkept
  have hfound := htaken.found_endWord rfl hload hn hsmall h16 hrest
  rw [← hbehind] at hfound
  exact hfound.trans (hkept.trans hwas)

/-- Behind a free chunk that does not end the page is an allocation. -/
theorem PageInv.behind (hi : PageInv k s free) {c : Chunk} (hc : c ∈ free)
    (hmid : (c.addr.toNat + c.size.toNat) % 2 ^ k ≠ 0) :
    ∃ b ∈ s.live, (b.chunk k).1 = c.addr.toNat + c.size.toNat := by
  have hl := hi.tight.layout
  have hpiece : c.span ∈ pieces k s.live free [] := Layout.free_mem hc
  obtain ⟨r, hr, hlo, hhi⟩ := hl.region hpiece
  have hbase := (hl.regions r hr).1
  have hpos := (hl.piece_bounds hpiece).2.2.1
  have hsize : r.size.toNat = 2 ^ k := by
    rcases hi.paged with ⟨hnone, _⟩ | ⟨r', hone, hsize⟩
    · rw [hnone] at hr
      cases hr
    · rw [hone] at hr
      rw [List.mem_singleton.mp hr]
      exact hsize
  unfold Region.span Chunk.span at hlo hhi
  unfold Chunk.span at hpos
  simp only at hlo hhi hpos
  have hlt : c.addr.toNat + c.size.toNat
      < r.base.toNat + r.size.toNat := by
    refine Nat.lt_of_le_of_ne hhi fun heq => hmid ?_
    rw [heq, hsize, Nat.add_mod_right, hbase]
  obtain ⟨q, hq, hqlo, hqhi⟩ := hi.tight.covers r.span
    (List.mem_map_of_mem hr) (c.addr.toNat + c.size.toNat)
    (show r.base.toNat + 32 ≤ _ by omega) hlt
  -- the piece there starts where the chunk ends
  have hne : q ≠ c.span := by
    rintro rfl
    exact Nat.lt_irrefl _ hqhi
  have hstart : q.1 = c.addr.toNat + c.size.toNat := by
    have hapart := hl.apart hq hpiece hne
    unfold Apart Chunk.span at hapart
    simp only at hapart
    omega
  rcases mem_pieces.mp hq with hheld | ⟨b, hb, rfl⟩ | ⟨d, hd, rfl⟩
  · cases hheld
  · exact ⟨b, hb, hstart⟩
  · exact absurd hstart (hi.tight.lonely c hc d hd)

/-- An allocation that takes from a chunk with another one behind it. -/
theorem PageInv.middle (hi : PageInv k s free) {n : Size}
    (hroomy : (HeapCall.alloc n).Roomy k s)
    (hmid : ¬ (HeapCall.alloc n).AtEnd k s) :
    ∃ l₁ c l₂ b, free = l₁ ++ c :: l₂
      ∧ firstFound s (calcAllocSize n) = .ok (some c.addr)
      ∧ (c.size = calcAllocSize n
        ∨ (calcAllocSize n).toNat + 32 ≤ c.size.toNat)
      ∧ b ∈ s.live ∧ (b.chunk k).1 = c.addr.toNat + c.size.toNat := by
  have hl := hi.tight.layout
  obtain ⟨-, -, hfit⟩ := hroomy
  obtain ⟨f, hf, hmid⟩ : ∃ f,
      firstFound s (calcAllocSize n) = .ok (some f)
        ∧ (f + s.sys.mem.load64 f).toNat % 2 ^ k ≠ 0 := by
    by_contra hno
    exact hmid fun f hf => by_contra fun h => hno ⟨f, hf, h⟩
  have hfit := hfit f hf
  rcases hi.tight.inv.firstFit_ok (Nat.lt_succ_of_le hi.calls)
    (calcAllocSize n) with ⟨hnone, _⟩ | ⟨l₁, c, l₂, rfl, hsome, _⟩
  · exact absurd (hf.symm.trans hnone) (by simp)
  obtain rfl : f = c.addr := by simpa using hf.symm.trans hsome
  have hc : c ∈ l₁ ++ c :: l₂ := mem_insert.mpr (.inl rfl)
  rw [hi.tight.inv.marks.sizes c hc] at hfit hmid
  rw [(hl.front_toNat (Layout.free_mem hc) (Nat.le_refl _)).1] at hmid
  obtain ⟨b, hb, hbehind⟩ := hi.behind hc hmid
  exact ⟨l₁, c, l₂, b, rfl, hf, hfit, hb, hbehind⟩

/-- The condition on an allocation is needed: one that takes from a chunk
with another one behind it leaves a wrong tag. -/
theorem PageInv.not_tagsHold (hi : PageInv k s free) {n : Size}
    (hv : (HeapCall.alloc n).Valid s) (hroomy : (HeapCall.alloc n).Roomy k s)
    (hmid : ¬ (HeapCall.alloc n).AtEnd k s) {s' : HeapState}
    (hexec : (HeapCall.alloc n).exec place s = .ok s') : ¬ TagsHold k s' := by
  have ht := hi.tight
  have hl := ht.layout
  have hn : n.toNat + 11 < 2 ^ 64 := hv
  obtain ⟨l₁, c, l₂, b, rfl, hsome, hfit, hb, hbehind⟩ :=
    hi.middle hroomy hmid
  obtain ⟨hsmall, hroom, -⟩ := hroomy
  unfold firstFound at hsome
  have hc : c ∈ l₁ ++ c :: l₂ := mem_insert.mpr (.inl rfl)
  have hpiece : c.span ∈ pieces k s.live (l₁ ++ c :: l₂) [] :=
    Layout.free_mem hc
  have hlt : c.size.toNat < 2 ^ 30 := ht.size_lt hpiece
  -- the state after the call
  unfold HeapCall.exec heapAlloc at hexec
  rw [hl.pageSize] at hexec
  simp only [if_neg hsmall, hsome] at hexec
  cases hexec
  obtain ⟨hinv, -, -, htag, -⟩ := Inv.take_found (n := n) rfl ht.inv hn
    hsmall (by omega) (hfit.imp_right fun h => by omega)
    (.inr fun d hd h24 => by
      have hbig := ht.big _ (Layout.free_mem (mem_insert.mpr (.inr hd)))
      unfold Chunk.span at hbig
      simp only at hbig
      omega)
  intro hhold
  have hlen : (l₁ ++ l₂ ++ c.rest (calcAllocSize n)).length
      ≤ s.calls + 1 := by
    have hcalls := hi.calls
    have hrest := c.rest_length (calcAllocSize n)
    simp only [List.length_append, List.length_cons] at *
    omega
  unfold TagsHold heapCells at hhold
  rw [freeChunks_eq hinv hlen] at hhold
  have hy : (⟨b.chunk k, true⟩ : Cell) ∈ cells k (⟨c.addr, n⟩ :: s.live)
      (l₁ ++ l₂ ++ c.rest (calcAllocSize n)) :=
    mem_cells.mpr (.inl ⟨b, List.mem_cons_of_mem _ hb, rfl⟩)
  rcases hfit with hsame | hsplit
  · -- the whole of it: the new tag has no bit for what is behind
    have hspan : Alloc.chunk k ⟨c.addr, n⟩
        = (c.addr.toNat, (calcAllocSize n).toNat) :=
      Alloc.chunk_small k hsmall
    have hsays := hhold ⟨Alloc.chunk k ⟨c.addr, n⟩, true⟩
      (mem_cells.mpr (.inl ⟨_, List.mem_cons_self, rfl⟩)) _ hy
      (by rw [hspan, hbehind, hsame])
    have hword := (hl.front_toNat hpiece (Nat.le_of_eq
      (congrArg BitVec.toNat hsame.symm))).2 (by omega)
    rw [hbehind, hsame, endWord_eq hword, htag, tagWord_this,
      tagWord_says (hsame ▸ hlt)] at hsays
    cases hsays.2.2
  · -- a part of it: the rest has the tag of the whole
    have hd : (⟨c.addr + calcAllocSize n, c.size - calcAllocSize n⟩ : Chunk)
        ∈ c.rest (calcAllocSize n) := by
      unfold Chunk.rest
      rw [if_pos (BitVec.lt_def.mpr (by omega))]
      exact List.mem_cons_self
    obtain ⟨-, hspan⟩ := hl.rest_span hpiece hd
    have hsays := hhold _ (mem_cells.mpr
      (.inr ⟨_, List.mem_append_right _ hd, rfl⟩)) _ hy (by
        rw [hspan, hbehind]
        simp only
        omega)
    rw [ht.rest_endWord hn hsmall (by omega) hsplit hb hbehind,
      tagWord_says hlt, hspan] at hsays
    have hsize := hsays.1
    simp only at hsize
    omega

/-- An empty heap has no gap, and no tag. -/
theorem PageInv.init {os : Os} {addr : Addr} {sys : Sys}
    (hboot : Bootable k os addr) (hi : Inv k sys [] [] []) (hos : sys.os = os)
    (hchunk : sys.heap.chunkSize = pageOf k) :
    PageInv k ⟨sys, [], 0⟩ [] := by
  have hmapped : sys.os.mapped = [] := by
    rw [hos]
    exact hboot.mapped
  refine ⟨Nat.le_refl _, ⟨⟨hi.layout, ?_, ?_, ?_, ?_, ?_, ?_⟩, hi⟩,
    ⟨k, hchunk⟩, .inl ⟨hmapped, hchunk⟩⟩
  · rw [hmapped]
    exact fun r hr => nomatch hr
  · exact fun a ha => nomatch ha
  · exact fun q hq => nomatch hq
  · exact fun x hx => nomatch hx
  · exact fun c hc => nomatch hc
  · rw [hmapped]
    exact fun r hr => nomatch hr

/-- What a run in one page keeps. -/
theorem PageInv.run {os : Os} {addr : Addr} (hboot : Bootable k os addr)
    (m : ByteMem) (place : Placement) :
    ∃ sys, heapInit os m addr = .ok sys
      ∧ ∀ cs, Along (HeapCall.exec place)
          (fun s c => c.Valid s ∧ c.Roomy k s ∧ c.OnePage s ∧ c.AtEnd k s)
          ⟨sys, [], 0⟩ cs →
        Yields (· = .mmapFailed) (heapRun place ⟨sys, [], 0⟩ cs) fun s =>
          ∃ free, PageInv k s free := by
  obtain ⟨sys, hinit, hi, hos, hchunk⟩ := heapInit_inv hboot m
  refine ⟨sys, hinit, fun cs hcs => ?_⟩
  exact Along.yields (I := fun s => ∃ free, PageInv k s free)
    (fun s c hs hc => by
      obtain ⟨free, hs⟩ := hs
      exact hs.step hc.1 hc.2.1 hc.2.2.1 hc.2.2.2)
    cs _ ⟨[], PageInv.init hboot hi hos hchunk⟩ hcs

/-- From `npr_heap_init` on, through allocations, frees and writes in one
page: after every call the chunks fill the page and have the tags they
should have, as long as nothing is taken from the middle of it. -/
theorem tags_hold {os : Os} {addr : Addr} (hboot : Bootable k os addr)
    (m : ByteMem) (place : Placement) :
    ∃ sys, heapInit os m addr = .ok sys
      ∧ ∀ cs, Along (HeapCall.exec place)
          (fun s c => c.Valid s ∧ c.Roomy k s ∧ c.OnePage s ∧ c.AtEnd k s)
          ⟨sys, [], 0⟩ cs →
        Yields (· = .mmapFailed) (heapRun place ⟨sys, [], 0⟩ cs) fun s =>
          Filled k s ∧ TagsHold k s := by
  obtain ⟨sys, hinit, hrun⟩ := PageInv.run hboot m place
  refine ⟨sys, hinit, fun cs hcs => (hrun cs hcs).mono ?_⟩
  rintro s ⟨free, hs⟩
  exact hs.tight.tagsHold hs.calls

/-- The first allocation of such a run that takes from the middle leaves a
wrong tag. -/
theorem tags_break {os : Os} {addr : Addr} (hboot : Bootable k os addr)
    (m : ByteMem) (place : Placement) :
    ∃ sys, heapInit os m addr = .ok sys
      ∧ ∀ cs, Along (HeapCall.exec place)
          (fun s c => c.Valid s ∧ c.Roomy k s ∧ c.OnePage s ∧ c.AtEnd k s)
          ⟨sys, [], 0⟩ cs →
        ∀ s, heapRun place ⟨sys, [], 0⟩ cs = .ok s →
          ∀ n, (HeapCall.alloc n).Valid s → (HeapCall.alloc n).Roomy k s →
            ¬ (HeapCall.alloc n).AtEnd k s →
            ∀ s', (HeapCall.alloc n).exec place s = .ok s' →
              ¬ TagsHold k s' := by
  obtain ⟨sys, hinit, hrun⟩ := PageInv.run hboot m place
  refine ⟨sys, hinit, fun cs hcs s hs n hv hroomy hmid s' hexec => ?_⟩
  obtain ⟨free, hi⟩ := (hrun cs hcs).of_ok hs
  exact hi.not_tagsHold hv hroomy hmid hexec

end

-- ============================================================== small runs

/-- Two allocations, the first given back, its hole passed over once and
then reused: its tag says that what is behind it is free. -/
theorem tags_stale : ∃ sys s, heapInit lowOs blank 0x1000 = .ok sys
    ∧ Along (HeapCall.exec everyMegabyte)
      (fun s c => c.Valid s ∧ c.Roomy 12 s ∧ c.OnePage s) ⟨sys, [], 0⟩
      [.alloc 28, .alloc 28, .free 0x100020 28, .alloc 28, .alloc 28]
    ∧ heapRun everyMegabyte ⟨sys, [], 0⟩
      [.alloc 28, .alloc 28, .free 0x100020 28, .alloc 28, .alloc 28] = .ok s
    ∧ ¬ TagsHold 12 s := by
  have hrun : (do
      let sys ← heapInit lowOs blank 0x1000
      let s ← heapRun everyMegabyte ⟨sys, [], 0⟩
        [.alloc 28, .alloc 28, .free 0x100020 28, .alloc 28, .alloc 28]
      if Along (HeapCall.exec everyMegabyte)
          (fun s c => c.Valid s ∧ c.Roomy 12 s ∧ c.OnePage s) ⟨sys, [], 0⟩
          [.alloc 28, .alloc 28, .free 0x100020 28, .alloc 28, .alloc 28]
          ∧ ¬ TagsHold 12 s then
        Except.ok () else .error HeapError.noReturn).isOk = true := by
    decide +kernel
  obtain ⟨u, hrun⟩ := exists_ok hrun
  obtain ⟨sys, hinit, hrun⟩ := bind_eq_ok hrun
  obtain ⟨s, hcalls, hrun⟩ := bind_eq_ok hrun
  split at hrun
  · rename_i hstale
    exact ⟨sys, s, hinit, hstale.1, hcalls, hstale.2⟩
  · cases hrun

/-- A run that merges a chunk with both its neighbours. -/
theorem tags_hold_merged : ∃ sys s, heapInit lowOs blank 0x1000 = .ok sys
    ∧ heapRun everyMegabyte ⟨sys, [], 0⟩ [.alloc 100, .alloc 50, .alloc 28,
        .alloc 60, .free 0x100020 100, .free 0x1000c0 28, .write 0x1000e4 7,
        .free 0x100088 50] = .ok s
    ∧ TagsHold 12 s := by
  obtain ⟨sys, hinit, hall⟩ := tags_hold lowOs_bootable blank everyMegabyte
  have hrun : (do
      let sys ← heapInit lowOs blank 0x1000
      let s ← heapRun everyMegabyte ⟨sys, [], 0⟩ [.alloc 100, .alloc 50,
        .alloc 28, .alloc 60, .free 0x100020 100, .free 0x1000c0 28,
        .write 0x1000e4 7, .free 0x100088 50]
      if Along (HeapCall.exec everyMegabyte)
          (fun s c => c.Valid s ∧ c.Roomy 12 s ∧ c.OnePage s ∧ c.AtEnd 12 s)
          ⟨sys, [], 0⟩ [.alloc 100, .alloc 50, .alloc 28, .alloc 60,
            .free 0x100020 100, .free 0x1000c0 28, .write 0x1000e4 7,
            .free 0x100088 50] then
        Except.ok () else .error HeapError.noReturn).isOk = true := by
    decide +kernel
  obtain ⟨u, hrun⟩ := exists_ok hrun
  obtain ⟨sys', hinit', hrun⟩ := bind_eq_ok hrun
  rw [hinit] at hinit'
  cases hinit'
  obtain ⟨s, hcalls, hrun⟩ := bind_eq_ok hrun
  split at hrun
  · rename_i halong
    have hend := (hall _ halong).of_ok hcalls
    exact ⟨sys, s, hinit, hcalls, hend.2⟩
  · cases hrun

end UdeBench.Npr.FirstFit
