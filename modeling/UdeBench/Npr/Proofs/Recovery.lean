/-
What allocations took is whole again when all of them are given back, in
whatever order.

# Two phases

While the program only allocates, a free chunk is the rest of its region
(`Stacked`), so every allocation takes from the end of one and the tags
stay right. While it only gives back, the tags make every chunk merge
with its free neighbours, so no two free ones touch; and when nothing is
allocated, free chunks that fill their regions without touching are the
regions (`Tiling.full`).

# Inside of a region

The code takes a chunk for the first or the last of its region by its
place in a page. In a region of more than one page this goes wrong at the
page borders inside: `Sighted` keeps allocations off them, at either
end. One allocation that ends at such a border is enough
(`recovery_split`): the chunk behind it is never merged with it when it is
the last to be given back.
-/
import UdeBench.Npr.Proofs.Boundary

namespace UdeBench.Npr.FirstFit

open Spans ByteMem Calls

-- ============================================================== statement

/-- What a program does while it allocates, and while it gives back. -/
def HeapCall.Takes : HeapCall → Prop
  | alloc _ => True
  | free _ _ => False
  | write _ _ => True

def HeapCall.GivesBack : HeapCall → Prop
  | alloc _ => False
  | free _ _ => True
  | write _ _ => True

/-- No allocation starts or ends at a page border, but at those of its
region. -/
def HeapCall.Sighted (k : Nat) (s : HeapState) : HeapCall → Prop
  | alloc n => FoundHas (firstFound s (calcAllocSize n)) fun f =>
      f.toNat % 2 ^ k ≠ 32
        ∧ ((f + calcAllocSize n).toNat % 2 ^ k = 0 →
          s.sys.mem.load64 f = calcAllocSize n)
  | free _ _ => True
  | write _ _ => True

/-- Chunks lie apart, and no free one touches another one. -/
def Separate (k : Nat) (s : HeapState) : Prop :=
  ((heapCells k s).map Cell.span).Pairwise Apart
    ∧ ∀ c ∈ freeChunks s, ∀ d ∈ freeChunks s,
      d.addr.toNat ≠ c.addr.toNat + c.size.toNat

/-- The free list has one chunk for each region, which fills it. -/
def Recovered (s : HeapState) : Prop :=
  ((freeChunks s).map Chunk.span).Perm
    (s.sys.os.mapped.map fun r => (r.base.toNat + 32, r.size.toNat - 32))

instance : ∀ c : HeapCall, Decidable c.Takes
  | .alloc _ => isTrue trivial
  | .free _ _ => isFalse id
  | .write _ _ => isTrue trivial

instance : ∀ c : HeapCall, Decidable c.GivesBack
  | .alloc _ => isFalse id
  | .free _ _ => isTrue trivial
  | .write _ _ => isTrue trivial

instance (k : Nat) (s : HeapState) : ∀ c : HeapCall, Decidable (c.Sighted k s)
  | .alloc _ => inferInstanceAs (Decidable (FoundHas _ _))
  | .free _ _ => isTrue trivial
  | .write _ _ => isTrue trivial

instance (s : HeapState) : Decidable (Recovered s) :=
  inferInstanceAs (Decidable (List.Perm _ _))

section
variable {k : Nat} {sys : Sys} {s : HeapState} {live : List Alloc}
  {free : List Chunk} {place : Placement}

-- =============================================================== giving back

/-- A heap whose allocations no page border inside of a region touches. -/
structure Bordered (k : Nat) (s : HeapState) (free : List Chunk) : Prop where
  calls : free.length ≤ s.calls
  tight : Tight k s.sys s.live free []
  borders : ∀ b ∈ s.live, Borders k s.sys.os (b.chunk k)

/-- Frees and writes keep it, and always return. -/
theorem Bordered.giveBack (hi : Bordered k s free) {c : HeapCall}
    (hv : c.Valid s) (hc : c.GivesBack) :
    Yields (fun _ => False) (c.exec place s) fun s' =>
      ∃ free', Bordered k s' free' := by
  have ht := hi.tight
  cases c with
  | alloc n => exact hc.elim
  | free p n =>
      have hb : (⟨p, n⟩ : Alloc) ∈ s.live := hv
      obtain ⟨sys, free', hfree, ht', hos, _, hlen⟩ :=
        ht.heapFree_ok hb (hi.borders _ hb)
      have hcalls := hi.calls
      simp only [HeapCall.exec, hfree]
      refine Yields.ok ⟨free', by simp only; omega, ht', fun b hb' => ?_⟩
      rw [hos]
      exact hi.borders b (List.mem_of_mem_erase hb')
  | write a v =>
      obtain ⟨b, hb, hlo, hhi⟩ := hv
      exact Yields.ok ⟨free, hi.calls, ht.store8 hb hlo hhi v, hi.borders⟩

/-- Its chunks as a reader finds them. -/
theorem Bordered.separate (hi : Bordered k s free) : Separate k s := by
  have hread := freeChunks_eq hi.tight.inv hi.calls
  unfold Separate heapCells
  rw [hread]
  refine ⟨?_, hi.tight.lonely⟩
  have hspans : (cells k s.live free).map Cell.span
      = pieces k s.live free [] := by
    unfold cells pieces
    rw [List.map_append, List.map_map, List.map_map]
    rfl
  rw [hspans]
  exact hi.tight.layout.tiling.apart

/-- Where nothing is allocated, every region is one free chunk. -/
theorem Bordered.recovered (hi : Bordered k s free) (hnone : s.live = []) :
    Recovered s := by
  have ht := hi.tight
  have hl := ht.layout
  have hpieces : pieces k s.live free [] = free.map Chunk.span := by
    rw [hnone]
    rfl
  have htiling := hl.tiling
  have hcovers := ht.covers
  rw [hpieces] at htiling hcovers
  have hfull := htiling.full hcovers (by
    intro p hp q hq
    obtain ⟨c, hc, rfl⟩ := List.mem_map.mp hp
    obtain ⟨d, hd, rfl⟩ := List.mem_map.mp hq
    exact ht.lonely c hc d hd) (by
    intro r hr
    obtain ⟨r', hr', rfl⟩ := List.mem_map.mp hr
    exact (hl.regions r' hr').2.1)
  rw [List.map_map] at hfull
  unfold Recovered
  rw [freeChunks_eq ht.inv hi.calls]
  exact hfull

-- ================================================================ taking

/-- A heap that was only taken from: a free chunk is the rest of its
region. -/
structure Stacked (k : Nat) (s : HeapState) (free : List Chunk) : Prop
    extends Bordered k s free where
  doubling : Doubling s.sys.heap
  rests : ∀ c ∈ free, ∃ r ∈ s.sys.os.mapped,
    c.addr.toNat + c.size.toNat = r.base.toNat + r.size.toNat

/-- A chunk that is found may be taken from. -/
theorem Stacked.tail (hi : Stacked k s free) {n : Size}
    (hroomy : (HeapCall.alloc n).Roomy k s)
    (hsighted : (HeapCall.alloc n).Sighted k s) {c : Chunk} (hc : c ∈ free)
    (hfound : firstFound s (calcAllocSize n) = .ok (some c.addr)) :
    Tail k s.sys c (calcAllocSize n) := by
  obtain ⟨_, hroom, hfit⟩ := hroomy
  have hfit := hfit c.addr hfound
  simp only at hfit
  rw [hi.tight.inv.marks.sizes c hc] at hfit
  exact ⟨hroom, hfit, hi.rests c hc, fun hfirst =>
    absurd hfirst (hsighted c.addr hfound).1⟩

/-- The new allocation keeps off the page borders. -/
theorem Stacked.served {s' : Sys} {free' : List Chunk} {c : Chunk} {n : Size}
    (hi : Stacked k s free) (hroomy : (HeapCall.alloc n).Roomy k s)
    (hsighted : (HeapCall.alloc n).Sighted k s)
    (h : Served k s.sys s' (firstFound s (calcAllocSize n)) s.live free free'
      c n) :
    Borders k s'.os (c.addr.toNat, (calcAllocSize n).toNat) := by
  refine ⟨fun hlast => ?_, h.tail.first⟩
  simp only at hlast ⊢
  rcases h.source with ⟨hfound, l₁, l₂, hfree, _, hos, _⟩
    | ⟨_, r, _, hos, hspan, _, _⟩
  · -- a rest that is taken whole
    have hc : c ∈ free := by
      rw [hfree]
      simp
    have hpiece : c.span ∈ pieces k s.live free [] := Layout.free_mem hc
    have hexact := (hsighted c.addr hfound).2
    rw [(hi.tight.layout.front_toNat hpiece h.tail.le).1,
      hi.tight.inv.marks.sizes c hc] at hexact
    rw [← hexact hlast, hos]
    exact hi.rests c hc
  · -- the front of a new region ends in its first page
    exfalso
    have hl := h.tight.layout
    have hpage := page_bounds hl.shift
    have hsmall := hroomy.1
    rw [isLarge_iff hl.shift] at hsmall
    have hr : r ∈ s'.os.mapped := by
      rw [hos]
      exact List.mem_cons_self
    have haddr : c.addr.toNat = r.base.toNat + 32 := congrArg Prod.fst hspan
    rw [haddr, Nat.add_assoc, Nat.add_mod, (hl.regions r hr).1, Nat.zero_add,
      Nat.mod_mod, Nat.mod_eq_of_lt (by omega)] at hlast
    omega

/-- Allocations and writes keep it. -/
theorem Stacked.take (hi : Stacked k s free) {c : HeapCall}
    (hc : c.Takes) (hv : c.Valid s) (hroomy : c.Roomy k s)
    (hsighted : c.Sighted k s) :
    Yields (· = .mmapFailed) (c.exec place s) fun s' =>
      ∃ free', Stacked k s' free' := by
  have ht := hi.tight
  cases c with
  | alloc n =>
      unfold HeapCall.exec
      refine Yields.bind (ht.heapAlloc_ok hi.doubling hv
        (Nat.lt_succ_of_le hi.calls) hroomy.1 hroomy.2.1 rfl
        fun c hc hfound => hi.tail hroomy hsighted hc hfound) ?_
      rintro ⟨sys, p⟩ ⟨free', c, rfl, hserved⟩
      have hlen := hserved.length_le
      have hcalls := hi.calls
      have hborders := hi.served hroomy hsighted hserved
      have hmapped : ∀ r ∈ s.sys.os.mapped, r ∈ sys.os.mapped := by
        intro r hr
        rcases hserved.source with
          ⟨_, _, _, _, _, hos, _⟩ | ⟨_, _, _, hos, _⟩
        · rw [hos]
          exact hr
        · rw [hos]
          exact List.mem_cons_of_mem _ hr
      refine Yields.ok ⟨free', ⟨by simp only; omega, hserved.tight, ?_⟩,
        hserved.doubling hi.doubling, ?_⟩
      · intro b hb
        rcases List.mem_cons.mp hb with rfl | hb
        · rw [hserved.chunk]
          exact hborders
        · obtain ⟨hlast, hfirst⟩ := hi.borders b hb
          refine ⟨fun h => ?_, fun h => ?_⟩
          · obtain ⟨r, hr, hend⟩ := hlast h
            exact ⟨r, hmapped r hr, hend⟩
          · obtain ⟨r, hr, hstart⟩ := hfirst h
            exact ⟨r, hmapped r hr, hstart⟩
      · -- a rest ends where the chunk did
        intro d hd
        have hrest : d ∈ free ∨ d ∈ c.rest (calcAllocSize n) := by
          rcases hserved.source with
            ⟨_, l₁, l₂, rfl, rfl, _⟩ | ⟨_, _, rfl, _⟩
          · simp only [List.mem_append, List.mem_cons] at hd ⊢
            tauto
          · exact List.mem_append.mp hd
        rcases hrest with hd | hd
        · obtain ⟨r, hr, hend⟩ := hi.rests d hd
          exact ⟨r, hmapped r hr, hend⟩
        · obtain ⟨r, hr, hend⟩ := hserved.tail.last
          rw [← hserved.rest_end hd] at hend
          exact ⟨r, hr, hend⟩
  | free p n => exact hc.elim
  | write a v =>
      obtain ⟨b, hb, hlo, hhi⟩ := hv
      exact Yields.ok ⟨free, ⟨hi.calls, ht.store8 hb hlo hhi v, hi.borders⟩,
        hi.doubling, hi.rests⟩

/-- From `npr_heap_init` on, through allocations that keep off the page
borders inside of regions: whatever the order in which they are given
back, every call returns, chunks lie apart and fill their regions, no two
free ones touch, and when all are given back every region is one free
chunk. -/
theorem heap_recovers {os : Os} {addr : Addr} (hboot : Bootable k os addr)
    (m : ByteMem) (place : Placement) :
    ∃ sys, heapInit os m addr = .ok sys
      ∧ ∀ cs, Along (HeapCall.exec place)
          (fun s c => c.Takes ∧ c.Valid s ∧ c.Roomy k s ∧ c.Sighted k s)
          ⟨sys, [], 0⟩ cs →
        Yields (· = .mmapFailed) (heapRun place ⟨sys, [], 0⟩ cs) fun s =>
          ∀ ds, Along (HeapCall.exec place)
              (fun s d => d.GivesBack ∧ d.Valid s) s ds →
            ∃ t, heapRun place s ds = .ok t ∧ Filled k t ∧ Separate k t
              ∧ (t.live = [] → Recovered t) := by
  obtain ⟨sys, hinit, hi, hos, hchunk⟩ := heapInit_inv hboot m
  refine ⟨sys, hinit, fun cs hcs => ?_⟩
  have hpage := PageInv.init hboot hi hos hchunk
  have hstart : Stacked k ⟨sys, [], 0⟩ [] :=
    ⟨⟨hpage.calls, hpage.tight, fun b hb => nomatch hb⟩, hpage.doubling,
      fun c hc => nomatch hc⟩
  have htaken := Along.yields (I := fun s => ∃ free, Stacked k s free)
    (fun s c hs hc => by
      obtain ⟨free, hs⟩ := hs
      exact hs.take hc.1 hc.2.1 hc.2.2.1 hc.2.2.2)
    cs _ ⟨[], hstart⟩ hcs
  refine htaken.mono ?_
  rintro s ⟨free, hs⟩ ds hds
  have hgiven := Along.yields (I := fun s => ∃ free, Bordered k s free)
    (fun s c hs hc => by
      obtain ⟨free, hs⟩ := hs
      exact hs.giveBack hc.2 hc.1)
    ds s ⟨free, hs.toBordered⟩ hds
  cases hrun : ds.foldlM (HeapCall.exec place) s with
  | error e => exact (hgiven.of_error hrun).elim
  | ok t =>
      obtain ⟨free', ht⟩ := hgiven.of_ok hrun
      exact ⟨t, hrun, (ht.tight.tagsHold ht.calls).1, ht.separate,
        ht.recovered⟩

end

-- ============================================================== small runs

/-- Four allocations, the last of which ends at the border of the two
pages of the second region, and is given back last. -/
theorem recovery_split : ∃ sys s t, heapInit lowOs blank 0x1000 = .ok sys
    ∧ Along (HeapCall.exec everyMegabyte)
      (fun s c => c.Takes ∧ c.Valid s ∧ c.Roomy 12 s) ⟨sys, [], 0⟩
      [.alloc 3956, .alloc 3956, .alloc 100, .alloc 100]
    ∧ heapRun everyMegabyte ⟨sys, [], 0⟩
      [.alloc 3956, .alloc 3956, .alloc 100, .alloc 100] = .ok s
    ∧ Along (HeapCall.exec everyMegabyte)
      (fun s d => d.GivesBack ∧ d.Valid s) s
      [.free 0x100020 3956, .free 0x200020 3956, .free 0x100f98 100,
        .free 0x200f98 100]
    ∧ heapRun everyMegabyte s
      [.free 0x100020 3956, .free 0x200020 3956, .free 0x100f98 100,
        .free 0x200f98 100] = .ok t
    ∧ t.live = [] ∧ ¬ Recovered t := by
  have hrun : (do
      let sys ← heapInit lowOs blank 0x1000
      let s ← heapRun everyMegabyte ⟨sys, [], 0⟩
        [.alloc 3956, .alloc 3956, .alloc 100, .alloc 100]
      let t ← heapRun everyMegabyte s
        [.free 0x100020 3956, .free 0x200020 3956, .free 0x100f98 100,
          .free 0x200f98 100]
      if Along (HeapCall.exec everyMegabyte)
            (fun s c => c.Takes ∧ c.Valid s ∧ c.Roomy 12 s) ⟨sys, [], 0⟩
            [.alloc 3956, .alloc 3956, .alloc 100, .alloc 100]
          ∧ Along (HeapCall.exec everyMegabyte)
            (fun s d => d.GivesBack ∧ d.Valid s) s
            [.free 0x100020 3956, .free 0x200020 3956, .free 0x100f98 100,
              .free 0x200f98 100]
          ∧ t.live = [] ∧ ¬ Recovered t then
        Except.ok () else .error HeapError.noReturn).isOk = true := by
    decide +kernel
  obtain ⟨u, hrun⟩ := exists_ok hrun
  obtain ⟨sys, hinit, hrun⟩ := bind_eq_ok hrun
  obtain ⟨s, htaken, hrun⟩ := bind_eq_ok hrun
  obtain ⟨t, hgiven, hrun⟩ := bind_eq_ok hrun
  split at hrun
  · rename_i hsplit
    obtain ⟨htakes, hgives, hsplit⟩ := hsplit
    exact ⟨sys, s, t, hinit, htakes, htaken, hgives, hgiven, hsplit⟩
  · cases hrun

/-- Two regions, given back from the middle. -/
theorem heap_recovers_two : ∃ sys s t, heapInit lowOs blank 0x1000 = .ok sys
    ∧ heapRun everyMegabyte ⟨sys, [], 0⟩ [.alloc 3000, .alloc 3000,
        .alloc 200, .write 0x100020 7] = .ok s
    ∧ heapRun everyMegabyte s [.free 0x200020 3000, .free 0x100020 3000,
        .free 0x100be0 200] = .ok t
    ∧ Recovered t := by
  obtain ⟨sys, hinit, hall⟩ := heap_recovers lowOs_bootable blank
    everyMegabyte
  have hrun : (do
      let sys ← heapInit lowOs blank 0x1000
      let s ← heapRun everyMegabyte ⟨sys, [], 0⟩ [.alloc 3000, .alloc 3000,
        .alloc 200, .write 0x100020 7]
      let t ← heapRun everyMegabyte s [.free 0x200020 3000,
        .free 0x100020 3000, .free 0x100be0 200]
      if Along (HeapCall.exec everyMegabyte)
          (fun s c => c.Takes ∧ c.Valid s ∧ c.Roomy 12 s ∧ c.Sighted 12 s)
          ⟨sys, [], 0⟩ [.alloc 3000, .alloc 3000, .alloc 200,
            .write 0x100020 7]
          ∧ Along (HeapCall.exec everyMegabyte)
            (fun s d => d.GivesBack ∧ d.Valid s) s [.free 0x200020 3000,
              .free 0x100020 3000, .free 0x100be0 200]
          ∧ t.live = [] then
        Except.ok () else .error HeapError.noReturn).isOk = true := by
    decide +kernel
  obtain ⟨u, hrun⟩ := exists_ok hrun
  obtain ⟨sys', hinit', hrun⟩ := bind_eq_ok hrun
  rw [hinit] at hinit'
  cases hinit'
  obtain ⟨s, htaken, hrun⟩ := bind_eq_ok hrun
  obtain ⟨t, hgiven, hrun⟩ := bind_eq_ok hrun
  split at hrun
  · rename_i hok
    obtain ⟨htakes, hgives, hnone⟩ := hok
    obtain ⟨t', hgiven', _, _, hback⟩ := (hall _ htakes).of_ok htaken _ hgives
    rw [hgiven] at hgiven'
    cases hgiven'
    exact ⟨sys, s, t, hinit, htaken, hgiven, hback hnone⟩
  · cases hrun

end UdeBench.Npr.FirstFit
