/-
Runs of the chunk allocator: the elements of its chunks are live or free,
each once.

Every call keeps `Inv` where `elem_size * chunk_count` is an `int`, and
the program's writes do, which stay out of free elements and headers
(`exec_yields`). From `Inv`, `npr_chunk_allocator_fini` gives back each
block once (`fini_ok`).

Where it is no `int`, already the first chunk is not made, so the sizes
decide (`chunk_partition_iff`).
-/
import UdeBench.Lib.Calls
import UdeBench.Npr.Proofs.ChunkAlloc

namespace UdeBench.Npr.ChunkAlloc

open Spans ByteMem Chains Calls
open Blocks (Fault Sys Sound Accessible)

-- ============================================================== partition

/-- The elements of the chunks are the live and the free ones: `free` is
the chain from `top`, `chunks` the list of chunks. -/
structure Partition (e n : Word) (s : ChunkState) (free chunks : List Addr) :
    Prop where
  chain : Threaded 0 s.sys.mem s.alloc.top free
  acyclic : free.Nodup
  chunkChain : Threaded 8 s.sys.mem s.alloc.chunks chunks
  slots : (s.live ++ free).Perm (chunks.flatMap (elemsOf s.sys.mem e n))
  once : (s.live ++ free).Nodup
  apart : (s.live ++ free).Pairwise fun p q =>
    Apart (elemSpan e p) (elemSpan e q)
  within : ∀ p ∈ s.live ++ free, ∃ b ∈ s.sys.live,
    b.base.toNat ≤ p.toNat
      ∧ p.toNat + e.toNat ≤ b.base.toNat + b.size.toNat

/-- What a call does: no live element is returned, and a chunk is asked
for when no element is free. -/
structure Step (e n : Word) (s : ChunkState) (c : ChunkCall)
    (s' : ChunkState) : Prop where
  partition : ∃ free chunks, Partition e n s' free chunks
  fresh : c = .alloc → ∃ p, s'.live = p :: s.live ∧ p ∉ s.live
  refill : s'.sys.calls ≠ s.sys.calls → ∃ chunks, Partition e n s [] chunks

/-- The blocks that `npr_chunk_allocator_fini` frees for a chunk. -/
def freedFor (m : ByteMem) (c : Addr) : List Addr := [m.load64 c, c]

/-- `npr_chunk_allocator_fini` returns, and has freed each chunk once. -/
def Released (e n : Word) (s : ChunkState) : Prop :=
  ∀ free chunks, Partition e n s free chunks → ∀ fuel, chunks.length < fuel →
    ∃ sys, chunkAllocatorFini fuel s.sys s.alloc = .ok sys
      ∧ sys.freed = chunks.flatMap (freedFor s.sys.mem)
      ∧ sys.freed.Nodup ∧ sys.live = []

/-- A run in which the elements stay partitioned. -/
def Keeps (place : Blocks.Placement) (mem : ByteMem) (taken : Span) (e n : Word)
    (cs : List ChunkCall) : Prop :=
  ∃ s, chunkInit place mem taken e n = .ok s
    ∧ (∃ free chunks, Partition e n s free chunks)
    ∧ Along (ChunkCall.exec place)
      (fun s c => ∃ s', c.exec place s = .ok s' ∧ Step e n s c s') s cs
    ∧ ∀ t, cs.foldlM (ChunkCall.exec place) s = .ok t → Released e n t

variable {place : Blocks.Placement} {e n : Word} {s : ChunkState}
  {live free chunks : List Addr}

theorem Inv.partition (hs : Sizes e n)
    (h : Inv e n s.sys s.alloc s.live free chunks) :
    Partition e n s free chunks := by
  refine ⟨h.freeChain, h.freeChain.nodup, h.chunkChain, h.slots, h.nodup hs,
    h.apart hs, fun p hp => ?_⟩
  obtain ⟨c, hc, _, _, _, hlo, hhi⟩ := h.elem hs hp
  exact ⟨_, h.data_mem hc, hlo, hhi⟩

-- ============================================================== the calls

/-- An allocator in use that is in order, and has freed nothing. -/
def Good (e n : Word) (s : ChunkState) : Prop :=
  (∃ free chunks, Inv e n s.sys s.alloc s.live free chunks)
    ∧ s.sys.freed = []

/-- An allocator that has just been set up. -/
theorem init_yields (place : Blocks.Placement) (mem : ByteMem) (taken : Span)
    (hs : Sizes e n) :
    Yields Blocks.OutOfMemory (chunkInit place mem taken e n) (Good e n) :=
  (allocatorInit_yields place mem taken hs).bind fun _ hr =>
    ⟨hr.1, hr.2.2⟩

/-- Every call keeps the allocator in order. -/
theorem exec_yields (place : Blocks.Placement) (hs : Sizes e n) {c : ChunkCall}
    (h : Good e n s) (hv : c.Valid s) :
    Yields Blocks.OutOfMemory (c.exec place s) fun s' =>
      Good e n s' ∧ Step e n s c s' := by
  obtain ⟨⟨free, chunks, hinv⟩, hfreed⟩ := h
  cases c with
  | alloc =>
      refine (alloc_yields place hs hinv).bind fun r hr => ?_
      obtain ⟨free', chunks', hinv'⟩ := hr.inv
      refine ⟨⟨⟨free', chunks', hinv'⟩, hr.freed.trans hfreed⟩,
        ⟨free', chunks', Inv.partition (s := ⟨_, _, _⟩) hs hinv'⟩,
        fun _ => ⟨_, rfl, hr.fresh⟩, fun hcalls => ?_⟩
      obtain rfl := hr.calls hcalls
      exact ⟨chunks, hinv.partition hs⟩
  | free p =>
      have hp : p ∈ s.live := hv
      obtain ⟨m', a', hfree, hinv', _⟩ :=
        free_ok hs (hinv.perm (List.perm_cons_erase hp).symm)
      simp only [ChunkCall.exec, hfree, bind, Except.bind]
      exact ⟨⟨⟨_, _, hinv'⟩, hfreed⟩,
        ⟨_, _, Inv.partition (s := ⟨_, _, _⟩) hs hinv'⟩,
        fun hc => (nomatch hc), fun hne => absurd rfl hne⟩
  | write a v =>
      -- a live element, or outside: no header and no free element
      have hinv' : Inv e n { s.sys with mem := s.sys.mem.store8 a v } s.alloc
          s.live free chunks := by
        refine hinv.congr (fun c hc => agree_store8 ?_ _ _)
          (fun q hq => agree_store8 ?_ _ _)
        · rcases hv with ⟨p, hp, hlo, hhi⟩ | hout
          · have hapart := hinv.elem_header hs
              (List.mem_append_left free hp) hc
            rw [hinv.elemSize] at hhi
            unfold Apart elemSpan headerSpan at *
            simp only at *
            omega
          · exact (hout _ (hinv.header_mem hc)).symm
        · have helem := hs.elem
          rcases hv with ⟨p, hp, hlo, hhi⟩ | hout
          · have hapart := hinv.live_free hs hp hq
            rw [hinv.elemSize] at hhi
            unfold Apart elemSpan span64 at *
            simp only at *
            omega
          · obtain ⟨c, hc, _, _, _, hlo, hhi⟩ := hinv.elem hs
              (List.mem_append_right s.live hq)
            have hapart := hout _ (hinv.data_mem hc)
            unfold Apart Blocks.Block.span span64 at *
            simp only at *
            omega
      exact ⟨⟨⟨_, _, hinv'⟩, hfreed⟩,
        ⟨_, _, Inv.partition (s := ⟨_, _, _⟩) hs hinv'⟩,
        fun hc => (nomatch hc), fun hne => absurd rfl hne⟩

-- =================================================================== fini

/-- Each chunk is freed, its elements before its header. Induction on the
chunks. -/
theorem finiFrom_ok : ∀ (chunks : List Addr) (s : Sys) (c : Addr)
    (fuel : Nat), Sound s → Threaded 8 s.mem c chunks →
    s.live.Perm (chunks.flatMap (blocksOf s.mem e n)) →
    chunks.length < fuel →
    ∃ s', finiFrom fuel s c = .ok s' ∧ s'.live = []
      ∧ s'.freed = s.freed ++ chunks.flatMap (freedFor s.mem) := by
  intro chunks
  induction chunks with
  | nil =>
      intro s c fuel _ hchain hlive hfuel
      obtain ⟨fuel, rfl⟩ := Nat.exists_eq_succ_of_ne_zero
        (Nat.ne_of_gt hfuel)
      rw [finiFrom, if_pos (threaded_nil.mp hchain)]
      exact ⟨s, rfl, hlive.eq_nil, (List.append_nil _).symm⟩
  | cons d chunks ih =>
      intro s c fuel hsound hchain hlive hfuel
      obtain ⟨fuel, rfl⟩ := Nat.exists_eq_succ_of_ne_zero
        (Nat.ne_of_gt (Nat.lt_of_le_of_lt (Nat.zero_le _) hfuel))
      obtain ⟨rfl, hne, hrest⟩ := threaded_cons.mp hchain
      have hlive : s.live.Perm (⟨c, sizeofChunk⟩
          :: ⟨s.mem.load64 c, dataSize e n⟩
          :: chunks.flatMap (blocksOf s.mem e n)) := hlive
      have hheader : ⟨c, sizeofChunk⟩ ∈ s.live :=
        hlive.mem_iff.mpr List.mem_cons_self
      obtain ⟨hacc, hacc_chain⟩ := header_accessible hsound hheader
      obtain ⟨s₁, hs₁, hlive₁, hmem₁, hfreed₁, hsound₁⟩ :=
        Blocks.free_ok hsound (hlive.trans (List.Perm.swap _ _ _))
      obtain ⟨s₂, hs₂, hlive₂, hmem₂, hfreed₂, hsound₂⟩ :=
        Blocks.free_ok hsound₁ hlive₁
      have hmem : s₂.mem = s.mem := hmem₂.trans hmem₁
      obtain ⟨s', hs', hempty, hfreed⟩ := ih s₂
        (s.mem.load64 (chainOf c)) fuel hsound₂
        (by rw [hmem]; exact hrest) (by rw [hmem]; exact hlive₂)
        (Nat.lt_of_succ_lt_succ hfuel)
      rw [finiFrom, if_neg hne, Blocks.load_ok hacc_chain,
        Blocks.load_ok hacc]
      simp only [bind, Except.bind, hs₁, hs₂]
      refine ⟨s', hs', hempty, ?_⟩
      rw [hfreed, hmem, hfreed₂, hfreed₁]
      simp only [List.flatMap_cons, freedFor, List.append_assoc]
      rfl

/-- No pointer is freed twice. -/
theorem Inv.freed_nodup {a : Allocator} {sys : Sys}
    (h : Inv e n sys a live free chunks) :
    (chunks.flatMap (freedFor sys.mem)).Nodup := by
  obtain ⟨hpair, hcross⟩ := h.beside
  refine List.pairwise_flatMap.mpr ⟨fun c hc => ?_, hcross.imp ?_⟩
  · have hne : c ≠ sys.mem.load64 c :=
      ((List.pairwise_cons.mp (hpair c hc)).1 _ List.mem_cons_self).1
    exact List.pairwise_pair.mpr hne.symm
  · intro c d hcd x hx y hy
    have hbase : ∀ c, ∀ x ∈ freedFor sys.mem c,
        ∃ b ∈ blocksOf sys.mem e n c, b.base = x := by
      intro c x hx
      rcases List.mem_cons.mp hx with rfl | hx
      · exact ⟨_, List.mem_cons_of_mem _ List.mem_cons_self, rfl⟩
      · obtain rfl := List.mem_singleton.mp hx
        exact ⟨_, List.mem_cons_self, rfl⟩
    obtain ⟨b, hb, rfl⟩ := hbase c x hx
    obtain ⟨b', hb', rfl⟩ := hbase d y hy
    exact (hcd b hb b' hb').1

theorem fini_ok (h : Good e n s) : Released e n s := by
  obtain ⟨⟨free, chunks, hinv⟩, hfreed⟩ := h
  intro free' chunks' hpart fuel hfuel
  obtain rfl : chunks' = chunks := hpart.chunkChain.unique hinv.chunkChain
  obtain ⟨sys, hsys, hlive, hfreed'⟩ := finiFrom_ok chunks' s.sys
    s.alloc.chunks fuel hinv.sound hinv.chunkChain hinv.blocks hfuel
  rw [hfreed, List.nil_append] at hfreed'
  exact ⟨sys, hsys, hfreed', by rw [hfreed']; exact hinv.freed_nodup, hlive⟩

-- ==================================================================== runs

/-- In a run that the allocator answers, the elements stay partitioned
exactly if `elem_size * chunk_count` is an `int`. -/
theorem chunk_partition_iff (place : Blocks.Placement) (mem : ByteMem)
    (taken : Span) {e n : Word} {cs : List ChunkCall}
    (hsizes : ValidSizes e n)
    (hcs : ∀ s, chunkInit place mem taken e n = .ok s →
      Along (ChunkCall.exec place) (fun s c => c.Valid s) s cs)
    (hmem : chunkRun place mem taken e n cs ≠ .error .mallocFailed) :
    Keeps place mem taken e n cs ↔ e.toInt * n.toInt < 2 ^ 31 := by
  constructor
  · rintro ⟨s, hinit, _⟩
    obtain ⟨r, halloc, _⟩ := bind_eq_ok hinit
    obtain ⟨r', hchunk, _⟩ := bind_eq_ok halloc
    exact allocChunk_eq_ok hsizes rfl hchunk
  · intro hfits
    have hs := hsizes.sizes hfits
    have hinit := init_yields place mem taken hs
    unfold chunkRun at hmem
    cases hs₀ : chunkInit place mem taken e n with
    | error err =>
        rw [hs₀] at hmem
        exact absurd (congrArg Except.error (hinit.of_error hs₀)) hmem
    | ok s =>
        rw [hs₀] at hmem
        have hgood := hinit.of_ok hs₀
        have hvalid := (hcs s hs₀).and cs (along_ne_error cs hmem)
        refine ⟨s, hs₀, ?_, ?_, fun t ht => fini_ok ?_⟩
        · obtain ⟨⟨free, chunks, hinv⟩, _⟩ := hgood
          exact ⟨free, chunks, hinv.partition hs⟩
        · refine Along.holds ?_ cs hgood hvalid
          rintro s c hgood ⟨hv, hanswer⟩
          have hexec := exec_yields place hs hgood hv
          refine ⟨?_, fun s' hc => (hexec.of_ok hc).1⟩
          cases hc : c.exec place s with
          | error err =>
              exact absurd (hc.trans (congrArg Except.error
                (hexec.of_error hc))) hanswer
          | ok s' => exact ⟨s', rfl, (hexec.of_ok hc).2⟩
        · exact (Along.yields (fun s c hg hv =>
            (exec_yields place hs hg hv).mono fun _ hr => hr.1) cs s hgood
            (hcs s hs₀)).of_ok ht

-- ============================================================== small runs

/-- Blocks one page behind the other. -/
def pages : Blocks.Placement := fun k => BitVec.ofNat 64 (4096 * (k + 1))

/-- A run with chunks of two elements: what was freed is handed out again,
and the last allocation makes a new chunk. -/
theorem chunk_partition_pair :
    Keeps pages ⟨fun _ => 0⟩ (0, 0) 8 2 [.alloc, .alloc, .free 4096,
      .free 4104, .alloc, .alloc, .alloc] := by
  refine (chunk_partition_iff pages ⟨fun _ => 0⟩ (0, 0)
    ⟨by decide, by decide, by decide⟩ (fun s hs => ?_) ?_).mpr (by decide)
  · have hvalid : Yields (fun _ => True)
        (chunkInit pages ⟨fun _ => 0⟩ (0, 0) 8 2) fun s =>
        Along (ChunkCall.exec pages) (fun s c => c.Valid s) s [.alloc, .alloc,
          .free 4096, .free 4104, .alloc, .alloc, .alloc] := by
      decide +kernel
    exact hvalid.of_ok hs
  · have hok : (chunkRun pages ⟨fun _ => 0⟩ (0, 0) 8 2 [.alloc, .alloc,
        .free 4096, .free 4104, .alloc, .alloc, .alloc]).isOk = true := by
      decide +kernel
    obtain ⟨t, ht⟩ := exists_ok hok
    rw [ht]
    exact fun hfailed => (nomatch hfailed)

/-- Five elements of 2^30 bytes: the block that `malloc` is asked for has
room for one, and the second one is written to. -/
theorem not_keeps_overflow :
    ValidSizes 0x40000000 5
      ∧ chunkRun pages ⟨fun _ => 0⟩ (0, 0) 0x40000000 5 []
        = .error .badAccess
      ∧ ¬ Keeps pages ⟨fun _ => 0⟩ (0, 0) 0x40000000 5 [] := by
  refine ⟨⟨by decide, by decide, by decide⟩, rfl, ?_⟩
  rintro ⟨s, hinit, _⟩
  cases hinit

end UdeBench.Npr.ChunkAlloc
