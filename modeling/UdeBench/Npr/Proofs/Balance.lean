/-
What the heap maps and what it unmaps.

# The condition

A large allocation is unmapped with the size it was mapped with, which
is computed again. What is still mapped when the heap is taken down is
unmapped with a size out of an `int`: that of a page for a region of
chunks, the one in the header for a large one. So nothing is left over
exactly if there is at most one region of chunks, for the second is two
pages long already, and if the large allocations that are left have
less than 2^31 bytes (`Reclaimable`).

The chunks themselves may be in any state. What the calls do to them,
and what the program writes, must keep off the page headers (`Clean`).
-/
import UdeBench.Lib.Calls
import UdeBench.Npr.Proofs.Integrity
import UdeBench.Npr.Proofs.Pages

namespace UdeBench.Npr.FirstFit

open Spans ByteMem Calls Leases

-- ============================================================== statement

/-- What is given back was allocated, with that size. -/
def HeapCall.Matched (b : Book) : HeapCall → Prop
  | alloc _ => True
  | free p n => ⟨p, n⟩ ∈ b.live
  | write _ _ => True

/-- What a call does to chunks, and what the program writes: the system
before it, its pages mapped already, and the memory after it. -/
def HeapCall.chunkWork (place : Placement) (fuel : Nat) (s : Sys) :
    HeapCall → Except HeapError (Sys × ByteMem)
  | alloc n => do
      let allocSize := calcAllocSize n
      if IsLarge s.heap.pageSize allocSize then .ok (s, s.mem)
      else
        match ← firstFit s.heap s.mem allocSize fuel
            (DList.next freeLinks s.mem s.heap.freeHead) with
        | some f => .ok (s, found s.heap (delFree s.mem f) f allocSize)
        | none =>
            let (s, f) ← newPage place s
            .ok (s, found s.heap s.mem f allocSize)
  | free p n => do
      let allocSize := calcAllocSize n
      if IsLarge s.heap.pageSize allocSize then .ok (s, s.mem)
      else
        let m ← freeNext s.heap s.mem p allocSize
        .ok (s, freePrev s.heap m p)
  | write a v => .ok (s, s.mem.store8 a v)

/-- It leaves the page headers alone. -/
def HeapCall.Clean (place : Placement) (fuel : Nat) (s : Sys) (c : HeapCall) :
    Prop :=
  Yields (fun _ => True) (c.chunkWork place fuel s) fun x =>
    HeadersKept x.1.heap x.1.os x.1.mem x.2

/-- The regions of the large allocations that are live, and the others. -/
def largeRegions (k : Nat) (live : List Alloc) : List Region :=
  (live.filter fun a => a.Large k).map (Alloc.region k)

def smallRegions (k : Nat) (b : Book) : List Region :=
  b.sys.os.mapped.filter fun r => r ∉ largeRegions k b.live

/-- At most one region of chunks was mapped, and what is left of the large
ones is shorter than an `int` can say. -/
structure Reclaimable (k : Nat) (b : Book) : Prop where
  single : (smallRegions k b).length ≤ 1
  short : ∀ r ∈ largeRegions k b.live, r.size.toNat < 2 ^ 31

instance (k : Nat) (b : Book) : Decidable (Reclaimable k b) :=
  decidable_of_iff (_ ∧ _) ⟨fun h => ⟨h.1, h.2⟩, fun h => ⟨h.1, h.2⟩⟩

instance (b : Book) : ∀ c : HeapCall, Decidable (c.Matched b)
  | .alloc _ => isTrue trivial
  | .free _ _ => inferInstanceAs (Decidable (_ ∈ b.live))
  | .write _ _ => isTrue trivial

instance (s : Span) (m m' : ByteMem) : Decidable (Agree s m m') :=
  decidable_of_iff (∀ i < s.2, m'.byte (s.1 + i) = m.byte (s.1 + i))
    ⟨fun h x hlo hhi => by
      have hbyte := h (x - s.1) (by omega)
      rwa [Nat.add_sub_cancel' hlo] at hbyte,
    fun h i hi => h _ (Nat.le_add_right _ _) (by omega)⟩

instance (h : Heap) (os : Os) (m m' : ByteMem) :
    Decidable (HeadersKept h os m m') :=
  inferInstanceAs (Decidable (_ ∧ ∀ r ∈ os.mapped, Agree _ _ _))

instance (place : Placement) (fuel : Nat) (s : Sys) (c : HeapCall) :
    Decidable (c.Clean place fuel s) :=
  inferInstanceAs (Decidable (Yields _ _ fun _ => HeadersKept _ _ _ _))

section
variable {k : Nat} {b : Book} {s s' : Sys} {live : List Alloc}
  {large small : List Region} {place : Placement} {fuel : Nat} {m : ByteMem}

-- ================================================================= ledger

theorem Pages.perm {large' : List Region} (hp : Pages k s large small)
    (hperm : large.Perm large') : Pages k s large' small :=
  ⟨hp.layout, hp.list, hp.mapped.trans (hperm.append_right _),
    fun r hr => hp.headers r (hperm.mem_iff.mpr hr), hp.plain, hp.doubled,
    hp.chunkSize⟩

theorem largeRegions_large {a : Alloc} (ha : a.Large k) :
    largeRegions k (a :: live) = a.region k :: largeRegions k live := by
  unfold largeRegions
  rw [List.filter_cons_of_pos (by simpa using ha), List.map_cons]

theorem largeRegions_small {a : Alloc} (ha : ¬ a.Large k) :
    largeRegions k (a :: live) = largeRegions k live := by
  unfold largeRegions
  rw [List.filter_cons_of_neg (by simpa using ha)]

theorem largeRegions_perm {live' : List Alloc} (h : live.Perm live') :
    (largeRegions k live).Perm (largeRegions k live') :=
  (h.filter _).map _

/-- What the system gave where one region was mapped, and where none
was. -/
theorem Mapped.given_eq {r : Region} (h : Mapped s s' r) :
    given s s' = [.given r.span] := by
  have hne : r ∉ s.os.mapped := by
    intro hr
    have hapart := h.fresh.2.2.2.2 r hr
    have hpos := h.fresh.1
    unfold Apart Region.span at hapart
    simp only at hapart
    omega
  have hnone : s.os.mapped.filter (fun q => q ∉ s.os.mapped) = [] := by
    rw [List.filter_eq_nil_iff]
    intro q hq
    simpa using hq
  unfold given
  rw [h.mapped, List.filter_cons_of_pos (by simpa using hne), hnone]
  rfl

theorem given_none (h : s'.os.mapped = s.os.mapped) : given s s' = [] := by
  have hnone : s.os.mapped.filter (fun q => q ∉ s.os.mapped) = [] := by
    rw [List.filter_eq_nil_iff]
    intro q hq
    simpa using hq
  unfold given
  rw [h, hnone]
  rfl

/-- A book that is in order. -/
structure BookInv (k : Nat) (b : Book) (small : List Region) : Prop where
  pages : Pages k b.sys (largeRegions k b.live) small
  holds : Leased b.events (b.sys.os.mapped.map Region.span)

/-- A region more, on both sides. -/
theorem Mapped.holds {r : Region} {events : List Event} (h : Mapped s s' r)
    (hb : Leased events (s.os.mapped.map Region.span)) :
    Leased (events ++ given s s') (s'.os.mapped.map Region.span) := by
  rw [h.given_eq, h.mapped, List.map_cons]
  refine hb.give fun q hq => ?_
  obtain ⟨r', hr', rfl⟩ := List.mem_map.mp hq
  exact h.fresh.2.2.2.2 r' hr'

-- ================================================================== steps

/-- An allocation. -/
theorem BookInv.alloc (hi : BookInv k b small) {n : Size}
    (hclean : (HeapCall.alloc n).Clean place fuel b.sys) :
    Yields (fun _ => True) (heapAlloc place fuel b.sys n) fun x =>
      ∃ small', BookInv k ⟨x.1, ⟨x.2, n⟩ :: b.live,
        b.events ++ given b.sys x.1⟩ small' := by
  obtain ⟨hp, hholds⟩ := hi
  have hps := hp.layout.pageSize
  unfold HeapCall.Clean at hclean
  simp only [HeapCall.chunkWork] at hclean
  unfold heapAlloc
  rw [hps] at hclean ⊢
  by_cases hlarge : IsLarge (pageOf k) (calcAllocSize n)
  · simp only [if_pos hlarge]
    refine (hp.allocLarge_ok (calcAllocSize n)).mono ?_
    rintro ⟨sys, p⟩ ⟨r, rfl, hsize, hmap, hp'⟩
    refine ⟨small, ?_, hmap.holds hholds⟩
    have hbig : Alloc.Large k ⟨r.base + sizeofPageHeader, n⟩ := hlarge
    have hregion : Alloc.region k ⟨r.base + sizeofPageHeader, n⟩ = r := by
      unfold Alloc.region
      rw [BitVec.add_sub_cancel, ← hsize]
    rw [largeRegions_large hbig, hregion]
    exact hp'
  · simp only [if_neg hlarge] at hclean ⊢
    have hsame : ∀ p, largeRegions k (⟨p, n⟩ :: b.live)
        = largeRegions k b.live := fun p =>
      largeRegions_small (a := ⟨p, n⟩) hlarge
    cases hfit : firstFit b.sys.heap b.sys.mem (calcAllocSize n) fuel
        (DList.next freeLinks b.sys.mem b.sys.heap.freeHead) with
    | error e => exact Yields.error trivial
    | ok found? =>
        rw [hfit] at hclean
        cases found? with
        | some f =>
            have hkept : HeadersKept b.sys.heap b.sys.os b.sys.mem
                (found b.sys.heap (delFree b.sys.mem f) f
                  (calcAllocSize n)) := hclean
            refine Yields.ok ⟨small, ?_, ?_⟩
            · rw [hsame]
              exact hp.kept hkept
            · simp only [given_none, List.append_nil]
              exact hholds
        | none =>
            cases hnew : newPage place b.sys with
            | error e => exact Yields.error trivial
            | ok x =>
                obtain ⟨sys, f⟩ := x
                obtain ⟨r, hmap, hp'⟩ := hp.newPage_ok.of_ok hnew
                rw [hnew] at hclean
                have hkept : HeadersKept sys.heap sys.os sys.mem
                    (found sys.heap sys.mem f (calcAllocSize n)) := hclean
                refine Yields.ok ⟨r :: small, ?_, hmap.holds hholds⟩
                rw [hsame]
                exact hp'.kept hkept

/-- What `npr_heap_free` leaves of the system where nothing is unmapped. -/
theorem heapFree_small {p : Addr} {n : Size}
    (hsmall : ¬ IsLarge s.heap.pageSize (calcAllocSize n))
    (h : heapFree s p n = .ok s') :
    ∃ m, s' = { s with mem := m } ∧ ∀ place fuel,
      (HeapCall.free p n).chunkWork place fuel s = .ok (s, m) := by
  unfold heapFree at h
  simp only [if_neg hsmall] at h
  obtain ⟨m, hnext, h⟩ := bind_eq_ok h
  cases h
  refine ⟨_, rfl, fun place fuel => ?_⟩
  simp only [HeapCall.chunkWork, if_neg hsmall, hnext]
  rfl

/-- A mapped region can be unmapped. -/
theorem Layout.munmap_eq {h : Heap} {os : Os} (hl : Layout k h os [] [] [])
    {r : Region} (hr : r ∈ os.mapped) : munmap r.base r.size = some r := by
  obtain ⟨_, hsize, htop, _⟩ := hl.regions r hr
  unfold munmap
  exact if_pos ⟨by omega, htop⟩

/-- A region less, on both sides. -/
theorem Pages.unheld {r : Region} {events : List Event}
    (hp : Pages k s large small) (hr : r ∈ s.os.mapped)
    (hb : Leased events (s.os.mapped.map Region.span)) :
    Leased (events ++ [.returned r.span])
      ((s.os.mapped.erase r).map Region.span) := by
  have hperm := (List.perm_cons_erase hr).map Region.span
  rw [List.map_cons] at hperm
  have hapart := (hperm.pairwise_iff Apart.symm).mp hp.layout.regionsApart
  exact (hb.congr fun q => hperm.mem_iff).giveBack
    (List.pairwise_cons.mp hapart).1

/-- An allocation given back. -/
theorem BookInv.free (hi : BookInv k b small) {p : Addr} {n : Size}
    (hmem : ⟨p, n⟩ ∈ b.live)
    (hclean : (HeapCall.free p n).Clean place fuel b.sys) :
    Yields (fun _ => True) (heapFree b.sys p n) fun sys =>
      BookInv k ⟨sys, b.live.erase ⟨p, n⟩,
        b.events ++ returned (freeUnmaps b.sys.heap p n)⟩ small := by
  obtain ⟨hp, hholds⟩ := hi
  have hps := hp.layout.pageSize
  have hlive := largeRegions_perm (k := k) (List.perm_cons_erase hmem)
  by_cases hlarge : IsLarge (pageOf k) (calcAllocSize n)
  · have hbig : Alloc.Large k ⟨p, n⟩ := hlarge
    rw [largeRegions_large hbig] at hlive
    generalize hr : Alloc.region k ⟨p, n⟩ = r at hlive
    have hbase : p - sizeofPageHeader = r.base := congrArg Region.base hr
    have hsize : largeSize (pageOf k) (calcAllocSize n) = r.size :=
      congrArg Region.size hr
    have hpr : p = r.base + sizeofPageHeader := by
      rw [← hbase, BitVec.sub_add_cancel]
    have hmemr : r ∈ largeRegions k b.live :=
      hlive.mem_iff.mpr List.mem_cons_self
    have hmapped := hp.large_mem hmemr
    have hunmaps : returned (freeUnmaps b.sys.heap p n)
        = [.returned r.span] := by
      unfold freeUnmaps
      rw [hps, if_pos hlarge, hbase, hsize, hp.layout.munmap_eq hmapped]
      rfl
    obtain ⟨herase, hp'⟩ := hp.freeLarge_ok (a := calcAllocSize n)
      (by rw [hsize]) hmemr
    rw [← hpr] at herase hp'
    unfold heapFree
    rw [hps, hunmaps]
    simp only [if_pos hlarge]
    refine Yields.ok ⟨hp'.perm ?_, ?_⟩
    · exact (hlive.erase r).trans (by rw [List.erase_cons_head])
    · simp only [herase]
      exact hp.unheld hmapped hholds
  · have hsmall : ¬ Alloc.Large k ⟨p, n⟩ := hlarge
    rw [largeRegions_small hsmall] at hlive
    have hunmaps : returned (freeUnmaps b.sys.heap p n) = [] := by
      unfold freeUnmaps
      rw [hps, if_neg hlarge]
      rfl
    rw [hunmaps, List.append_nil]
    cases hfree : heapFree b.sys p n with
    | error e => exact Yields.error trivial
    | ok sys =>
        rw [← hps] at hlarge
        obtain ⟨m, rfl, hwork⟩ := heapFree_small hlarge hfree
        unfold HeapCall.Clean at hclean
        rw [hwork] at hclean
        exact Yields.ok ⟨(hp.kept hclean).perm hlive, hholds⟩

/-- Every call keeps the book in order. -/
theorem BookInv.step (hi : BookInv k b small) {c : HeapCall}
    (hmatched : c.Matched b) (hclean : c.Clean place fuel b.sys) :
    Yields (fun _ => True) (b.exec place fuel c) fun b' =>
      ∃ small', BookInv k b' small' := by
  cases c with
  | alloc n =>
      unfold Book.exec
      exact (hi.alloc hclean).bind fun x hx => Yields.ok hx
  | free p n =>
      unfold Book.exec
      exact (hi.free hmatched hclean).bind fun sys hsys =>
        Yields.ok ⟨small, hsys⟩
  | write a v =>
      exact Yields.ok ⟨small, hi.pages.kept hclean, hi.holds⟩

-- =================================================================== fini

/-- An `int` given for a `size_t`. -/
theorem int_size (v : Word) :
    ((v.signExtend 64).toNat = v.toNat ∧ v.toNat < 2 ^ 31)
      ∨ (2 ^ 63 < (v.signExtend 64).toNat ∧ 2 ^ 31 ≤ v.toNat) := by
  rw [BitVec.toNat_signExtend, BitVec.toNat_setWidth,
    Nat.mod_eq_of_lt (Nat.lt_of_lt_of_le v.isLt (by decide)),
    BitVec.msb_eq_decide]
  have hlt := v.isLt
  by_cases hneg : 2 ^ 31 ≤ v.toNat
  · right
    rw [decide_eq_true hneg]
    simp only [if_true]
    omega
  · left
    rw [decide_eq_false hneg]
    simp only [Bool.false_eq_true, if_false]
    omega

/-- What is unmapped of a region with a size out of an `int`: a front of
it, or nothing. -/
theorem munmap_front {r q : Region} {v : Word}
    (hle : v.toNat ≤ r.size.toNat)
    (hq : munmap r.base (v.signExtend 64) = some q) :
    q.base = r.base ∧ q.size.toNat ≤ r.size.toNat := by
  unfold munmap at hq
  split at hq
  · rename_i hok
    cases hq
    refine ⟨rfl, ?_⟩
    rcases int_size v with ⟨heq, _⟩ | ⟨hneg, _⟩
    · exact heq ▸ hle
    · omega
  · cases hq

/-- It is the region exactly if the `int` says its size. -/
theorem Layout.munmap_whole {h : Heap} {os : Os} (hl : Layout k h os [] [] [])
    {r : Region} (hr : r ∈ os.mapped) {v : Word} :
    munmap r.base (v.signExtend 64) = some r
      ↔ v.toNat = r.size.toNat ∧ r.size.toNat < 2 ^ 31 := by
  have htop := (hl.regions r hr).2.2.1
  have hsize : munmap r.base (v.signExtend 64) = some r
      ↔ v.signExtend 64 = r.size := by
    constructor
    · intro hq
      unfold munmap at hq
      split at hq
      · exact congrArg Region.size (Option.some.inj hq)
      · cases hq
    · intro heq
      rw [heq]
      exact hl.munmap_eq hr
  rw [hsize, ← BitVec.toNat_inj]
  rcases int_size v with ⟨heq, hlt⟩ | ⟨hneg, hge⟩
  · rw [heq]
    omega
  · omega

/-- What `npr_heap_fini` takes for the size of a region. -/
theorem Pages.finiSize_large (hp : Pages k s large small) {r : Region}
    (hr : r ∈ large) :
    finiSize s.heap s.mem r.base = r.size.setWidth 32 := by
  obtain ⟨hflags, hsize⟩ := hp.headers r hr
  have hbit : nprLargeChunk &&& nprLargeChunk ≠ 0 := by decide
  unfold finiSize
  rw [hflags, if_pos hbit, hsize]

theorem Pages.finiSize_small (hp : Pages k s large small) {r : Region}
    (hr : r ∈ small) : finiSize s.heap s.mem r.base = pageOf k := by
  have hbit : ¬ (0 : Word) &&& nprLargeChunk ≠ 0 := by decide
  unfold finiSize
  rw [hp.plain r hr, if_neg hbit, hp.layout.pageSize]

/-- None of the small regions is shorter than a page. -/
theorem Doubled.page_le : ∀ {small : List Region}, Doubled k small →
    ∀ r ∈ small, 2 ^ k ≤ r.size.toNat
  | [], _ => fun r hr => nomatch hr
  | q :: rs, h => by
      intro r hr
      rcases List.mem_cons.mp hr with rfl | hr
      · rw [h.1]
        exact Nat.pow_le_pow_right (by decide) (Nat.le_add_right _ _)
      · exact h.2.page_le r hr

/-- Regions that double have one size only if there is one. -/
theorem Doubled.single : ∀ {small : List Region}, Doubled k small →
    ((∀ r ∈ small, r.size.toNat = 2 ^ k) ↔ small.length ≤ 1)
  | [], _ => by simp
  | [r], h => by
      refine ⟨fun _ => Nat.le_refl _, fun _ q hq => ?_⟩
      rw [List.mem_singleton.mp hq, h.1]
      rfl
  | r :: q :: rs, h => by
      constructor
      · intro hall
        have hsize := hall r List.mem_cons_self
        have hlt : 2 ^ k < 2 ^ (k + (q :: rs).length) := by
          refine Nat.pow_lt_pow_right (by decide) ?_
          rw [List.length_cons]
          omega
        rw [h.1] at hsize
        omega
      · intro hlen
        rw [List.length_cons, List.length_cons] at hlen
        omega

/-- The regions that are not large are the small ones. -/
theorem BookInv.smallRegions_length (hi : BookInv k b small) :
    (smallRegions k b).length = small.length := by
  have hp := hi.pages
  have hnodup : (largeRegions k b.live ++ small).Nodup := by
    refine hp.mapped.nodup_iff.mp (List.Nodup.of_map Region.span
      (nodup_of_pairwise_apart hp.layout.regionsApart fun q hq => ?_))
    obtain ⟨r, hr, rfl⟩ := List.mem_map.mp hq
    exact Nat.lt_of_le_of_lt (Nat.zero_le _) (hp.layout.regions r hr).2.1
  have hdisj := (List.nodup_append.mp hnodup).2.2
  have hperm : (smallRegions k b).Perm small := by
    refine (hp.mapped.filter _).trans (List.Perm.of_eq ?_)
    rw [List.filter_append]
    have hlarge : (largeRegions k b.live).filter
        (fun r => r ∉ largeRegions k b.live) = [] := by
      rw [List.filter_eq_nil_iff]
      intro r hr
      simpa using hr
    have hsmall : small.filter (fun r => r ∉ largeRegions k b.live)
        = small := by
      rw [List.filter_eq_self]
      intro r hr
      simpa using fun hmem => hdisj r hmem r hr rfl
    rw [hlarge, hsmall, List.nil_append]
  exact hperm.length_eq

/-- The whole of every region is unmapped exactly if there is one small
one at most, and no large one is too large. -/
theorem BookInv.whole_iff (hi : BookInv k b small) :
    (∀ r ∈ b.sys.os.mapped, finiPart b.sys r = some r)
      ↔ Reclaimable k b := by
  have hp := hi.pages
  have hl := hp.layout
  have hpage := page_bounds hl.shift
  have hpageOf := toNat_pageOf hl.shift
  have hlarge : ∀ r ∈ largeRegions k b.live,
      (finiPart b.sys r = some r ↔ r.size.toNat < 2 ^ 31) := by
    intro r hr
    unfold finiPart
    rw [hl.munmap_whole (hp.large_mem hr), hp.finiSize_large hr,
      BitVec.toNat_setWidth]
    omega
  have hsmall : ∀ r ∈ small,
      (finiPart b.sys r = some r ↔ r.size.toNat = 2 ^ k) := by
    intro r hr
    unfold finiPart
    rw [hl.munmap_whole (hp.small_mem hr), hp.finiSize_small hr, hpageOf]
    omega
  constructor
  · intro hall
    refine ⟨?_, fun r hr => (hlarge r hr).mp (hall r (hp.large_mem hr))⟩
    rw [hi.smallRegions_length]
    exact hp.doubled.single.mp fun r hr =>
      (hsmall r hr).mp (hall r (hp.small_mem hr))
  · rintro ⟨hsingle, hshort⟩ r hr
    rw [hi.smallRegions_length] at hsingle
    rcases List.mem_append.mp (hp.mapped.mem_iff.mp hr) with hr | hr
    · exact (hlarge r hr).mpr (hshort r hr)
    · exact (hsmall r hr).mpr (hp.doubled.single.mpr hsingle r hr)

/-- What is unmapped of a region lies in it. -/
theorem Pages.finiPart_inside (hp : Pages k s large small) {r q : Region}
    (hr : r ∈ s.os.mapped) (hq : finiPart s r = some q) :
    q.base = r.base ∧ q.size.toNat ≤ r.size.toNat := by
  have hl := hp.layout
  refine munmap_front ?_ hq
  rcases List.mem_append.mp (hp.mapped.mem_iff.mp hr) with hr' | hr'
  · rw [hp.finiSize_large hr', BitVec.toNat_setWidth]
    exact Nat.mod_le _ _
  · rw [hp.finiSize_small hr', toNat_pageOf hl.shift]
    exact hp.doubled.page_le r hr'

/-- `npr_heap_fini` on a book that is in order. -/
theorem BookInv.fini_ok (hi : BookInv k b small) {fuel : Nat}
    (hfuel : b.sys.os.mapped.length < fuel) :
    ∃ rs, heapFini fuel b.sys = .ok rs
      ∧ (Balanced (b.events ++ returned rs) ↔ Reclaimable k b) := by
  have hp := hi.pages
  have hl := hp.layout
  obtain ⟨rs, hrs, hfini⟩ := hp.heapFini_ok hfuel
  refine ⟨_, hfini, ?_⟩
  have hmem : ∀ r, r ∈ rs ↔ r ∈ b.sys.os.mapped := fun r => hrs.mem_iff
  have hspans := hrs.map Region.span
  have hevents : returned (rs.filterMap (finiPart b.sys))
      = (rs.filterMap fun r => (finiPart b.sys r).map Region.span).map
        .returned := by
    unfold returned
    rw [← List.map_filterMap, List.map_map]
    rfl
  have hpart : ∀ r, (finiPart b.sys r).map Region.span = some r.span
      ↔ finiPart b.sys r = some r := by
    intro r
    constructor
    · intro h
      obtain ⟨q, hq, hspan⟩ := Option.map_eq_some_iff.mp h
      have hsame : q = r := by
        obtain ⟨base, size⟩ := q
        obtain ⟨base', size'⟩ := r
        unfold Region.span at hspan
        rw [Prod.mk.injEq, BitVec.toNat_inj, BitVec.toNat_inj] at hspan
        obtain ⟨rfl, rfl⟩ := hspan
        rfl
      rw [hq, hsame]
    · intro h
      rw [h]
      rfl
  have hheld : Leased b.events (rs.map Region.span) :=
    hi.holds.congr fun q => hspans.symm.mem_iff
  rw [hevents, hheld.balanced_iff
    ((hspans.pairwise_iff Apart.symm).mpr hl.regionsApart)]
  · rw [← hi.whole_iff]
    simp only [hmem, hpart]
  · intro r hr
    exact Nat.lt_of_le_of_lt (Nat.zero_le _)
      (hl.regions r ((hmem r).mp hr)).2.1
  · intro r hr q hq
    obtain ⟨q, hpart, rfl⟩ := Option.map_eq_some_iff.mp hq
    obtain ⟨hbase, hsize⟩ := hp.finiPart_inside ((hmem r).mp hr) hpart
    unfold Region.span
    rw [hbase]
    simp only
    omega

/-- From `npr_heap_init` on, through allocations, frees and writes that
keep off the page headers: `npr_heap_fini` returns, and everything that
was mapped has been unmapped once, and nothing else, exactly if the heap
was reclaimable. -/
theorem mapping_balance {os : Os} {addr : Addr} (hboot : Bootable k os addr)
    (m : ByteMem) (place : Placement) (fuel : Nat) :
    ∃ sys, heapInit os m addr = .ok sys
      ∧ ∀ cs b, Along (Book.exec place fuel)
          (fun b c => c.Matched b ∧ c.Clean place fuel b.sys)
          ⟨sys, [], []⟩ cs →
        bookRun place fuel ⟨sys, [], []⟩ cs = .ok b →
        ∃ rs, heapFini (b.sys.os.mapped.length + 1) b.sys = .ok rs
          ∧ (Balanced (b.events ++ returned rs) ↔ Reclaimable k b) := by
  obtain ⟨sys, hinit, hi, hos, hchunk⟩ := heapInit_inv hboot m
  refine ⟨sys, hinit, fun cs b hcs hrun => ?_⟩
  have hmapped : sys.os.mapped = [] := by
    rw [hos]
    exact hboot.mapped
  have hstart : BookInv k ⟨sys, [], []⟩ [] := by
    refine ⟨⟨hi.layout, hi.marks.pages, ?_, fun r hr => (nomatch hr),
      fun r hr => (nomatch hr), trivial, hchunk⟩, ?_⟩
    · rw [hmapped]
      exact List.Perm.nil
    · rw [hmapped]
      exact Leased.nil
  have hend := Along.yields (I := fun b => ∃ small, BookInv k b small)
    (fun b c hb hc => by
      obtain ⟨small, hb⟩ := hb
      exact hb.step hc.1 hc.2)
    cs _ ⟨[], hstart⟩ hcs
  obtain ⟨small, hb⟩ := hend.of_ok hrun
  exact hb.fini_ok (Nat.lt_succ_self _)

end

-- ============================================================== small runs

/-- Two allocations that do not fit into one page: the second page of the
second region is never unmapped. -/
theorem mapping_leak : ∃ sys b rs, heapInit lowOs blank 0x1000 = .ok sys
    ∧ Along (Book.exec everyMegabyte 9)
      (fun b c => c.Matched b ∧ c.Clean everyMegabyte 9 b.sys) ⟨sys, [], []⟩
      [.alloc 3000, .alloc 3000]
    ∧ bookRun everyMegabyte 9 ⟨sys, [], []⟩ [.alloc 3000, .alloc 3000]
      = .ok b
    ∧ heapFini (b.sys.os.mapped.length + 1) b.sys = .ok rs
    ∧ ¬ Balanced (b.events ++ returned rs) := by
  have hrun : (do
      let sys ← heapInit lowOs blank 0x1000
      let b ← bookRun everyMegabyte 9 ⟨sys, [], []⟩
        [.alloc 3000, .alloc 3000]
      let rs ← heapFini (b.sys.os.mapped.length + 1) b.sys
      if Along (Book.exec everyMegabyte 9)
            (fun b c => c.Matched b ∧ c.Clean everyMegabyte 9 b.sys)
            ⟨sys, [], []⟩ [.alloc 3000, .alloc 3000]
          ∧ heldAt 0x201000 (b.events ++ returned rs) = some true then
        Except.ok () else .error HeapError.noReturn).isOk = true := by
    decide +kernel
  obtain ⟨u, hrun⟩ := exists_ok hrun
  obtain ⟨sys, hinit, hrun⟩ := bind_eq_ok hrun
  obtain ⟨b, hcalls, hrun⟩ := bind_eq_ok hrun
  obtain ⟨rs, hfini, hrun⟩ := bind_eq_ok hrun
  split at hrun
  · rename_i hok
    refine ⟨sys, b, rs, hinit, hok.1, hcalls, hfini, fun hb => ?_⟩
    have hend := hb 0x201000
    rw [hok.2] at hend
    cases hend
  · cases hrun

/-- A region of chunks and two large ones, the first given back. -/
theorem mapping_balance_three : ∃ sys b rs,
    heapInit lowOs blank 0x1000 = .ok sys
    ∧ bookRun everyMegabyte 9 ⟨sys, [], []⟩ [.alloc 100, .alloc 5000,
        .alloc 9000, .free 0x200020 5000, .write 0x100021 7,
        .free 0x100020 100] = .ok b
    ∧ heapFini (b.sys.os.mapped.length + 1) b.sys = .ok rs
    ∧ Balanced (b.events ++ returned rs) := by
  obtain ⟨sys, hinit, hall⟩ := mapping_balance lowOs_bootable blank
    everyMegabyte 9
  have hrun : (do
      let sys ← heapInit lowOs blank 0x1000
      let b ← bookRun everyMegabyte 9 ⟨sys, [], []⟩ [.alloc 100,
        .alloc 5000, .alloc 9000, .free 0x200020 5000, .write 0x100021 7,
        .free 0x100020 100]
      if Along (Book.exec everyMegabyte 9)
            (fun b c => c.Matched b ∧ c.Clean everyMegabyte 9 b.sys)
            ⟨sys, [], []⟩ [.alloc 100, .alloc 5000, .alloc 9000,
              .free 0x200020 5000, .write 0x100021 7, .free 0x100020 100]
          ∧ Reclaimable 12 b then
        Except.ok () else .error HeapError.noReturn).isOk = true := by
    decide +kernel
  obtain ⟨u, hrun⟩ := exists_ok hrun
  obtain ⟨sys', hinit', hrun⟩ := bind_eq_ok hrun
  rw [hinit] at hinit'
  cases hinit'
  obtain ⟨b, hcalls, hrun⟩ := bind_eq_ok hrun
  split at hrun
  · rename_i hok
    obtain ⟨rs, hfini, hiff⟩ := hall _ b hok.1 hcalls
    exact ⟨sys, b, rs, hinit, hcalls, hfini, hiff.mpr hok.2⟩
  · cases hrun

end UdeBench.Npr.FirstFit
