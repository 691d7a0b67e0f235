/-
What the program keeps in its allocations is its own, as long as the
calls are ones the heap's tags and sizes carry.

# The condition

`Sound` is a condition on a call and on the heap it meets. A large
region must not wrap around. A small chunk must hold the size and the
tag it gets (16 bytes) while what is split off, and what enters the free
list, must hold three words (24 bytes); a free chunk of exactly 24 bytes
has its tag in its last link, so no chunk behind it may be allocated or
given back. The bits in the two tags that `npr_heap_free` goes by must
be right about the chunks they describe (`Returnable`).

Under it every call keeps `Inv`, and with it every payload
(`heap_integrity`). Without it one byte too few is enough: a chunk of
16 bytes given back writes its third word over its neighbour
(`heap_overwrites`).
-/
import UdeBench.Lib.Calls
import UdeBench.Npr.Proofs.HeapFree

namespace UdeBench.Npr.FirstFit

open Spans ByteMem Calls

-- ================================================================== boot

/-- A system that a heap can be set up in: a page of `2 ^ k` bytes,
nothing mapped yet, and the struct at its address. -/
structure Bootable (k : Nat) (os : Os) (addr : Addr) : Prop where
  shift : PageShift k
  pageSize : os.pageSize = pageOf k
  taken : os.taken = (addr.toNat, sizeofHeap)
  space : addr.toNat + sizeofHeap < 2 ^ 64
  mapped : os.mapped = []

/-- Two ends, linked to each other. -/
theorem linked_ends {off : Addr} {a b : Addr} (ha : DList.InSpace off a)
    (hb : DList.InSpace off b) (hab : Apart (DList.span off a) (DList.span off b))
    (m : ByteMem) :
    DList.Linked off (DList.setPrev off (DList.setNext off m a b) b a)
      [a, b] := by
  refine ⟨by simpa using hab, ?_, ?_⟩
  · intro c hc
    rcases List.mem_cons.mp hc with rfl | hc
    · exact ha
    · rw [List.mem_singleton.mp hc]
      exact hb
  · refine List.isChain_cons_cons.mpr ⟨⟨?_, DList.prev_setPrev _ _ _⟩,
      List.isChain_singleton _⟩
    rw [DList.next_agree ha (DList.setPrev_agree hb hab a), DList.next_setNext]

/-- `npr_heap_init` makes an empty heap. -/
theorem heapInit_inv {k : Nat} {os : Os} {addr : Addr}
    (hboot : Bootable k os addr) (m : ByteMem) :
    ∃ s, heapInit os m addr = .ok s ∧ Inv k s [] [] []
      ∧ s.os = os ∧ s.heap.chunkSize = pageOf k := by
  obtain ⟨hshift, hps, htaken, hspace, hmapped⟩ := hboot
  obtain ⟨_, _, hpage, hpop, hbsf⟩ :=
    pageOf_cases k (Nat.lt_succ_of_le hshift.2) hshift.1
  unfold heapInit
  simp only [hps, hpop, hbsf, if_true]
  generalize hh : (⟨addr, pageOf k, pageOf k, ~~~((1#64 <<< k) - 1)⟩ : Heap)
    = h
  have haddr : h.addr = addr := by rw [← hh]
  have hl : Layout k h os [] [] [] := by
    refine ⟨hshift, by rw [← hh], by rw [← hh], ?_, hps, by rw [haddr, htaken],
      by rw [haddr]; exact hspace, ?_, ⟨?_, List.Pairwise.nil, ?_, ?_⟩, ?_, ?_⟩
    · rw [← hh]
      simp only
      rw [hpage, Nat.mod_self]
    · rw [hmapped]
      exact fun r hr => nomatch hr
    · rw [hmapped]
      exact List.Pairwise.nil
    · exact fun q hq => nomatch hq
    · exact fun q hq => nomatch hq
    · exact fun c hc => nomatch hc
    · exact fun a ha => nomatch ha
  obtain ⟨hfh, hft, hph, hpt⟩ := hl.ends
  rw [← haddr] at hspace
  unfold sizeofHeap at hspace
  have hfree : freeLinks.toNat = 8 := rfl
  have hpages : pageLinks.toNat = 0 := rfl
  -- the four pairs of links lie apart
  have hspaces : DList.InSpace pageLinks h.pageHead
      ∧ DList.InSpace pageLinks h.pageTail
      ∧ DList.InSpace freeLinks h.freeHead
      ∧ DList.InSpace freeLinks h.freeTail := by
    unfold DList.InSpace
    rw [hfree, hpages]
    omega
  obtain ⟨hsph, hspt, hsfh, hsft⟩ := hspaces
  have haparts : ∀ b, b = h.pageHead ∨ b = h.pageTail →
      Apart (DList.span pageLinks b) (DList.span freeLinks h.freeHead)
        ∧ Apart (DList.span pageLinks b)
          (DList.span freeLinks h.freeTail) := by
    unfold Apart DList.span
    rw [hfree, hpages]
    rintro b (rfl | rfl)
    all_goals simp only; omega
  have hpagesLinked := linked_ends hsph hspt (by
    unfold Apart DList.span
    rw [hpages]
    simp only
    omega) m
  refine ⟨_, rfl, ⟨hl, ⟨(fun c hc => nomatch hc), (fun a ha => nomatch ha),
    [], ?_, ?_⟩, ?_⟩, rfl, by rw [← hh]⟩
  · simp only [hmapped]
    exact List.Perm.nil
  · refine hpagesLinked.congr fun b hb => ?_
    have hb : b = h.pageHead ∨ b = h.pageTail := by
      simpa using hb
    exact (DList.setNext_agree hsfh (haparts b hb).1 _).trans
      (DList.setPrev_agree hsft (haparts b hb).2 _)
  · exact linked_ends hsfh hsft (by
      unfold Apart DList.span
      rw [hfree]
      simp only
      omega) _

-- =========================================================== the condition

/-- The free list, as a reader of the memory finds it. -/
def freeChunks (s : HeapState) : List Chunk :=
  (DList.walk freeLinks s.sys.mem s.sys.heap.freeTail (s.calls + 1)
    (DList.next freeLinks s.sys.mem s.sys.heap.freeHead)).map
      fun a => ⟨a, s.sys.mem.load64 a⟩

/-- The chunk that the search finds for an allocation. -/
def firstFound (s : HeapState) (a : Size) : Except HeapError (Option Addr) :=
  firstFit s.sys.heap s.sys.mem a (s.calls + 1)
    (DList.next freeLinks s.sys.mem s.sys.heap.freeHead)

/-- What a program may do: allocate less than the address space, give
back what it holds with its size, and write to what it holds. -/
def HeapCall.Valid (s : HeapState) : HeapCall → Prop
  | alloc n => n.toNat + 11 < 2 ^ 64
  | free p n => ⟨p, n⟩ ∈ s.live
  | write a _ => ∃ b ∈ s.live,
      b.p.toNat ≤ a.toNat ∧ a.toNat < b.p.toNat + b.n.toNat

/-- A statement about what is found, if something is. -/
def FoundHas (x : Except HeapError (Option Addr)) (P : Addr → Prop) : Prop :=
  ∀ f, x = .ok (some f) → P f

instance (P : Addr → Prop) [DecidablePred P] : ∀ x, Decidable (FoundHas x P)
  | .ok (some f) => decidable_of_iff (P f) ⟨fun h f' heq => by
      cases heq
      exact h, fun h => h f rfl⟩
  | .ok none => isTrue fun _ heq => nomatch heq
  | .error _ => isTrue fun _ heq => nomatch heq

/-- What a call relies on. -/
def HeapCall.Sound (k : Nat) (s : HeapState) : HeapCall → Prop
  | alloc n =>
      if IsLarge (pageOf k) (calcAllocSize n) then
        (calcAllocSize n).toNat + 31 + 2 ^ k < 2 ^ 64
      else 16 ≤ (calcAllocSize n).toNat
        ∧ FoundHas (firstFound s (calcAllocSize n)) fun f =>
          (s.sys.mem.load64 f = calcAllocSize n
            ∨ (calcAllocSize n).toNat + 24 ≤ (s.sys.mem.load64 f).toNat)
          ∧ (f.toNat % 2 ^ k = 32 ∨ ∀ d ∈ freeChunks s, d.size.toNat = 24 →
            d.addr.toNat + d.size.toNat ≠ f.toNat)
  | free p n =>
      IsLarge (pageOf k) (calcAllocSize n)
        ∨ Returnable k s.sys (freeChunks s) p (calcAllocSize n)
  | write _ _ => True

instance (s : HeapState) : ∀ c : HeapCall, Decidable (c.Valid s)
  | .alloc _ => inferInstanceAs (Decidable (_ < _))
  | .free _ _ => inferInstanceAs (Decidable (_ ∈ s.live))
  | .write _ _ => inferInstanceAs (Decidable (∃ b ∈ s.live, _ ∧ _))

instance (k : Nat) (s : Sys) (free : List Chunk) (p : Addr) (a : Size) :
    Decidable (Returnable k s free p a) :=
  decidable_of_iff (_ ∧ _ ∧ _) ⟨fun h => ⟨h.1, h.2.1, h.2.2⟩,
    fun h => ⟨h.next, h.prev, h.size⟩⟩

instance (k : Nat) (s : HeapState) : ∀ c : HeapCall, Decidable (c.Sound k s)
  | .alloc _ => inferInstanceAs (Decidable (ite _ _ _))
  | .free _ _ => inferInstanceAs (Decidable (_ ∨ _))
  | .write _ _ => isTrue trivial

/-- The allocations that a call has no business with. -/
def HeapCall.others (s : HeapState) : HeapCall → List Alloc
  | alloc _ => s.live
  | free p n => s.live.erase ⟨p, n⟩
  | write _ _ => []

-- ==================================================================== step

/-- A heap between two calls. -/
def HeapInv (k : Nat) (s : HeapState) : Prop :=
  ∃ free, free.length ≤ s.calls ∧ Inv k s.sys s.live free []

section
variable {k : Nat} {s : HeapState} {place : Placement}

/-- The free list is the one that is read. -/
theorem freeChunks_eq {free : List Chunk} {held : List Span}
    (hi : Inv k s.sys s.live free held) (hlen : free.length ≤ s.calls) :
    freeChunks s = free := by
  have hwalk : DList.walk freeLinks s.sys.mem s.sys.heap.freeTail
      (s.calls + 1) (DList.next freeLinks s.sys.mem s.sys.heap.freeHead)
      = free.map Chunk.addr := by
    refine hi.list.walk_eq _ ?_
    rw [List.length_map]
    exact Nat.le_succ_of_le hlen
  unfold freeChunks
  rw [hwalk, List.map_map]
  refine (List.map_congr_left fun c hc => ?_).trans (List.map_id free)
  simp only [Function.comp_apply, id]
  rw [hi.marks.sizes c hc]

/-- The program writes to what it holds. -/
theorem Inv.store8 {sys : Sys} {live : List Alloc} {free : List Chunk}
    (hi : Inv k sys live free []) {b : Alloc} (hb : b ∈ live) {a : Addr}
    (hlo : b.p.toNat ≤ a.toNat) (hhi : a.toNat < b.p.toNat + b.n.toNat)
    (v : BitVec 8) :
    Inv k { sys with mem := sys.mem.store8 a v } live free [] := by
  have hl := hi.layout
  have hlt := (hl.allocs b hb).payload_lt hl.shift
  have hp : (b.chunk k).1 = b.p.toNat := rfl
  have hw : Within [b.chunk k] sys.mem (sys.mem.store8 a v) := by
    intro t ht
    apply agree_store8
    have ht := ht _ List.mem_cons_self
    unfold Apart at *
    simp only
    omega
  obtain ⟨hinv, _⟩ := (hi.release hb).write hw
  have hback := hinv.adopt (hl.allocs b hb) fun hsmall => by
    obtain ⟨htag, h16⟩ := hl.tag_toNat hb hsmall
    rw [Agree.load32 (agree_store8 ?_ _ _)]
    · exact hi.marks.tags b hb hsmall
    · unfold Apart span32
      simp only
      omega
  -- the order of the live allocations does not matter
  have hperm := (List.perm_cons_erase hb).symm
  refine ⟨hback.layout.perm ?_ hback.layout.freeSize hl.allocs,
    ⟨hback.marks.sizes, ?_, hback.marks.pages⟩, hback.list⟩
  · unfold pieces
    exact ((hperm.map _).append_right _).append_left _
  · intro c hc
    exact hback.marks.tags c (hperm.mem_iff.mpr hc)

/-- A call that is sound keeps the invariant, and what it has no business
with. The system may run out of memory. -/
theorem HeapInv.step (hi : HeapInv k s) {c : HeapCall} (hv : c.Valid s)
    (hc : c.Sound k s) :
    Yields (· = .mmapFailed) (c.exec place s) fun s' =>
      HeapInv k s' ∧ ∀ b ∈ c.others s, Agree b.payload s.sys.mem s'.sys.mem := by
  obtain ⟨free, hlen, hi⟩ := hi
  have hread := freeChunks_eq hi hlen
  cases c with
  | alloc n =>
      have halloc : Yields (· = .mmapFailed)
          (heapAlloc place (s.calls + 1) s.sys n) fun x =>
            ∃ free', free'.length ≤ free.length + 1
              ∧ Inv k x.1 (⟨x.2, n⟩ :: s.live) free' []
              ∧ ∀ b ∈ s.live, Agree b.payload s.sys.mem x.1.mem := by
        refine hi.heapAlloc_ok hv (by omega) ?_ ?_
        · intro hlarge
          simp only [HeapCall.Sound, if_pos hlarge] at hc
          exact hc
        · intro hsmall
          simp only [HeapCall.Sound, if_neg hsmall] at hc
          refine ⟨hc.1, fun l₁ d l₂ hd hfound => ?_⟩
          subst hd
          obtain ⟨hfit, hno⟩ := hc.2 d.addr hfound
          rw [hi.marks.sizes d (by simp)] at hfit
          refine ⟨hfit, hno.imp_right fun hno e he => ?_⟩
          rw [hread] at hno
          apply hno e
          simp only [List.mem_append, List.mem_cons] at he ⊢
          tauto
      unfold HeapCall.exec
      refine halloc.bind ?_
      rintro ⟨sys, p⟩ ⟨free', hlen', hinv, hkeep⟩
      exact Yields.ok ⟨⟨free', by simp only; omega, hinv⟩, hkeep⟩
  | free p n =>
      obtain ⟨sys, free', hfree, hinv, hlen', hkeep⟩ :=
        hi.heapFree_ok (b := ⟨p, n⟩) hv fun hsmall => by
          rw [← hread]
          exact hc.resolve_left hsmall
      simp only [HeapCall.exec, hfree]
      exact Yields.ok ⟨⟨free', by simp only; omega, hinv⟩, hkeep⟩
  | write a v =>
      obtain ⟨b, hb, hlo, hhi⟩ := hv
      exact Yields.ok ⟨⟨free, hlen, hi.store8 hb hlo hhi v⟩,
        fun b hb => by cases hb⟩

/-- Allocations lie apart, in mapped regions, behind the page headers. -/
def Intact (s : HeapState) : Prop :=
  (s.live.map Alloc.payload).Pairwise Apart
    ∧ ∀ b ∈ s.live, ∃ r ∈ s.sys.os.mapped, Inside 32 r.span b.payload

theorem HeapInv.intact (hi : HeapInv k s) : Intact s := by
  obtain ⟨free, _, hi⟩ := hi
  have hl := hi.layout
  constructor
  · have hchunks : (s.live.map (Alloc.chunk k)).Pairwise Apart := by
      have hall := hl.tiling.apart
      unfold pieces at hall
      rw [List.nil_append] at hall
      exact (List.pairwise_append.mp hall).1
    rw [List.pairwise_map] at hchunks ⊢
    refine hchunks.imp_of_mem fun {a b} ha hb hab => ?_
    have hlta := (hl.allocs a ha).payload_lt hl.shift
    have hltb := (hl.allocs b hb).payload_lt hl.shift
    unfold Apart Alloc.payload at *
    unfold Alloc.chunk at hab hlta hltb
    simp only at *
    omega
  · intro b hb
    have hlt := (hl.allocs b hb).payload_lt hl.shift
    obtain ⟨r, hr, hlo, hhi⟩ := hl.region (Layout.chunk_mem hb)
    refine ⟨r, hr, hlo, ?_⟩
    show b.p.toNat + b.n.toNat ≤ _
    have hp : (b.chunk k).1 = b.p.toNat := rfl
    omega

/-- From `npr_heap_init` on, through calls that are valid and sound: the
run ends, or the system has no memory. The allocations lie apart, in
mapped regions behind the page headers. A further such call changes no
byte of an allocation that it has no business with. -/
theorem heap_integrity {os : Os} {addr : Addr} (hboot : Bootable k os addr)
    (m : ByteMem) (place : Placement) :
    ∃ sys, heapInit os m addr = .ok sys
      ∧ ∀ cs, Along (HeapCall.exec place) (fun s c => c.Valid s ∧ c.Sound k s)
          ⟨sys, [], 0⟩ cs →
        Yields (· = .mmapFailed) (heapRun place ⟨sys, [], 0⟩ cs) fun s =>
          Intact s ∧ ∀ c : HeapCall, c.Valid s → c.Sound k s →
            Yields (· = .mmapFailed) (c.exec place s) fun s' =>
              ∀ b ∈ c.others s, Agree b.payload s.sys.mem s'.sys.mem := by
  obtain ⟨sys, hinit, hi, _⟩ := heapInit_inv hboot m
  refine ⟨sys, hinit, fun cs hcs => ?_⟩
  have hstart : HeapInv k ⟨sys, [], 0⟩ := ⟨[], Nat.le_refl _, hi⟩
  have hrun := Along.yields (I := HeapInv k)
    (fun s c hs hc => (hs.step hc.1 hc.2).mono fun s' hs' => hs'.1)
    cs _ hstart hcs
  refine hrun.mono fun s hs => ⟨hs.intact, fun c hv hc => ?_⟩
  exact (hs.step hv hc).mono fun s' hs' => hs'.2

end

-- ============================================================== small runs

/-- A system with pages of 4096 bytes, and the struct low in memory. -/
def lowOs : Os := ⟨pageOf 12, (0x1000, sizeofHeap), [], 0⟩

/-- It puts its regions a megabyte apart. -/
def everyMegabyte : Placement := fun i => BitVec.ofNat 64 (0x100000 * (i + 1))

def blank : ByteMem := ⟨fun _ => 0#8⟩

theorem lowOs_bootable : Bootable 12 lowOs 0x1000 :=
  ⟨⟨by decide, by decide⟩, rfl, rfl, by decide, rfl⟩

/-- Two allocations of eight bytes, the first given back: its last link
is written over the second. -/
theorem heap_overwrites : ∃ sys s s', heapInit lowOs blank 0x1000 = .ok sys
    ∧ heapRun everyMegabyte ⟨sys, [], 0⟩ [.alloc 8, .alloc 8] = .ok s
    ∧ (HeapCall.free 0x100020 8).Valid s
    ∧ HeapCall.exec everyMegabyte s (.free 0x100020 8) = .ok s'
    ∧ ∃ b ∈ (HeapCall.free 0x100020 8).others s,
      ¬ Agree b.payload s.sys.mem s'.sys.mem := by
  have hrun : (do
      let sys ← heapInit lowOs blank 0x1000
      let s ← heapRun everyMegabyte ⟨sys, [], 0⟩ [.alloc 8, .alloc 8]
      let s' ← HeapCall.exec everyMegabyte s (.free 0x100020 8)
      if s.live = [(⟨0x100030, 8⟩ : Alloc), ⟨0x100020, 8⟩]
          ∧ s'.sys.mem.load64 0x100030 ≠ s.sys.mem.load64 0x100030 then
        Except.ok () else .error HeapError.noReturn).isOk = true := by
    decide +kernel
  obtain ⟨u, hrun⟩ := exists_ok hrun
  obtain ⟨sys, hinit, hrun⟩ := bind_eq_ok hrun
  obtain ⟨s, hcalls, hrun⟩ := bind_eq_ok hrun
  obtain ⟨s', hfree, hrun⟩ := bind_eq_ok hrun
  split at hrun
  · rename_i hdiff
    obtain ⟨hlive, hdiff⟩ := hdiff
    refine ⟨sys, s, s', hinit, hcalls, ?_, hfree, ⟨0x100030, 8⟩, ?_, ?_⟩
    · show (⟨0x100020, 8⟩ : Alloc) ∈ s.live
      rw [hlive]
      decide
    · show (⟨0x100030, 8⟩ : Alloc) ∈ s.live.erase ⟨0x100020, 8⟩
      rw [hlive]
      decide
    · intro hagree
      exact hdiff (Agree.load64 hagree)
  · cases hrun

/-- A run of five calls that are sound. -/
theorem heap_integrity_five : ∃ sys s, heapInit lowOs blank 0x1000 = .ok sys
    ∧ heapRun everyMegabyte ⟨sys, [], 0⟩ [.alloc 100, .alloc 5000, .alloc 40,
        .write 0x100021 7, .free 0x100020 100] = .ok s
    ∧ Intact s := by
  obtain ⟨sys, hinit, hall⟩ := heap_integrity lowOs_bootable blank
    everyMegabyte
  have hrun : (do
      let sys ← heapInit lowOs blank 0x1000
      let s ← heapRun everyMegabyte ⟨sys, [], 0⟩ [.alloc 100, .alloc 5000,
        .alloc 40, .write 0x100021 7, .free 0x100020 100]
      if Along (HeapCall.exec everyMegabyte)
          (fun s c => c.Valid s ∧ c.Sound 12 s) ⟨sys, [], 0⟩ [.alloc 100,
          .alloc 5000, .alloc 40, .write 0x100021 7, .free 0x100020 100] then
        Except.ok () else .error HeapError.noReturn).isOk = true := by
    decide +kernel
  obtain ⟨u, hrun⟩ := exists_ok hrun
  obtain ⟨sys', hinit', hrun⟩ := bind_eq_ok hrun
  rw [hinit] at hinit'
  cases hinit'
  obtain ⟨s, hcalls, hrun⟩ := bind_eq_ok hrun
  split at hrun
  · rename_i halong
    have hend := (hall _ halong).of_ok hcalls
    exact ⟨sys, s, hinit, hcalls, hend.1⟩
  · cases hrun

end UdeBench.Npr.FirstFit
