/-
The allocator of npr/chunk-alloc.c with elements that come back.

`Pool` relates it to two lists: the free chain, and the elements in use.
Together they are the elements of all chunks, each once. An allocation
moves an element from the one to the other, out of a new chunk where the
chain is empty, and a free moves it back. Neither touches an element that
stays in use. As long as none has come back they are handed out by their
numbers (`InOrder`).
-/
import Mathlib.Data.List.Nodup
import UdeBench.Lib.Yields
import UdeBench.Npr.Proofs.Rehash
import UdeBench.Npr.Symtabs

namespace UdeBench.Npr.SymbolTable

open Hashing

-- ================================================================ the chunks

/-- The link of a free element. -/
def freeLink (m : Elems) (p : ElemPtr) : Option ElemPtr :=
  match m p with
  | .free c => c
  | .used _ => none

theorem freeLink_of {m : Elems} {p : ElemPtr} {c : Option ElemPtr}
    (h : m p = .free c) : freeLink m p = c := by
  unfold freeLink
  rw [h]

/-- The elements of a chunk from the `i`-th on. -/
def chunkFrom (c i n : Nat) : List ElemPtr :=
  (List.range' i n).map (ElemPtr.mk c)

theorem mem_chunkFrom {c i n : Nat} {p : ElemPtr} :
    p ∈ chunkFrom c i n ↔ p.chunk = c ∧ i ≤ p.idx ∧ p.idx < i + n := by
  unfold chunkFrom
  rw [List.mem_map]
  constructor
  · intro h
    obtain ⟨j, hj, rfl⟩ := h
    exact ⟨rfl, List.mem_range'_1.mp hj⟩
  · intro h
    obtain ⟨hc, hj⟩ := h
    refine ⟨p.idx, List.mem_range'_1.mpr hj, ?_⟩
    rw [← hc]

/-- A new chunk is a chain from any of its elements on. Induction on how
many follow. -/
theorem chunkFrom_chain (m : Elems) (c : Nat) : ∀ n i, i + n = 512 →
    Chain (freeLink (allocChunk m c 512))
      (if i < 512 then some ⟨c, i⟩ else none) (chunkFrom c i n) := by
  intro n
  induction n with
  | zero =>
      intro i hi
      exact if_neg (by omega)
  | succ n ih =>
      intro i hi
      have hcell : allocChunk m c 512 ⟨c, i⟩
          = .free (if i + 1 < 512 then some ⟨c, i + 1⟩ else none) := by
        rw [allocChunk_apply]
        exact if_pos ⟨rfl, show i < 512 by omega⟩
      refine ⟨if_pos (by omega), ?_⟩
      rw [freeLink_of hcell]
      exact ih (i + 1) (by omega)

/-- A new chunk's elements are free. -/
theorem chunkFrom_free (m : Elems) {c : Nat} {p : ElemPtr}
    (hp : p ∈ chunkFrom c 0 512) : ∃ l, allocChunk m c 512 p = .free l := by
  have hin := mem_chunkFrom.mp hp
  have hlt : p.idx < 512 := by omega
  refine ⟨if p.idx + 1 < 512 then some ⟨c, p.idx + 1⟩ else none, ?_⟩
  rw [allocChunk_apply]
  exact if_pos ⟨hin.1, hlt⟩

/-- The elements of a chunk, by their numbers. -/
theorem elemAt_chunk (c : Nat) {k : Nat} (hk : k ≤ 512) :
    (List.range k).map (elemAt ∘ fun j => 512 * c + j) = chunkFrom c 0 k := by
  unfold chunkFrom
  rw [← List.range_eq_range']
  apply List.map_congr_left
  intro j hj
  have hlt := List.mem_range.mp hj
  unfold elemAt
  simp only [Function.comp_apply]
  rw [show (512 * c + j) / 512 = c by omega,
    show (512 * c + j) % 512 = j by omega]

/-- The elements of all chunks, with one chunk more. -/
theorem elems_succ (n : Nat) :
    (List.range (512 * (n + 1))).map elemAt
      = (List.range (512 * n)).map elemAt ++ chunkFrom n 0 512 := by
  rw [Nat.mul_succ, List.range_add, List.map_append, List.map_map,
    elemAt_chunk n (Nat.le_refl 512)]

-- ================================================================== the pool

/-- The free chain, and the elements in use. -/
structure Pool (m : Elems) (a : ChunkAllocator) (frees live : List ElemPtr) :
    Prop where
  count : a.chunkCount = 512
  chain : Chain (freeLink m) a.top frees
  cells : ∀ p ∈ frees, ∃ c, m p = .free c
  all : (frees ++ live).Perm ((List.range (512 * a.chunks)).map elemAt)

variable {m m' : Elems} {a : ChunkAllocator} {frees live : List ElemPtr}

theorem Pool.nodup (h : Pool m a frees live) : (frees ++ live).Nodup :=
  h.all.nodup_iff.mpr (List.nodup_range.map fun _ _ => elemAt_inj)

theorem Pool.live_nodup (h : Pool m a frees live) : live.Nodup :=
  (List.nodup_append.mp h.nodup).2.1

/-- No element is free and in use. -/
theorem Pool.apart (h : Pool m a frees live) {p : ElemPtr} (hp : p ∈ frees) :
    p ∉ live :=
  fun hin => (List.nodup_append.mp h.nodup).2.2 p hp p hin rfl

/-- The elements in use can be listed in another order. -/
theorem Pool.perm {live' : List ElemPtr} (h : Pool m a frees live)
    (hl : live.Perm live') : Pool m a frees live' :=
  ⟨h.count, h.chain, h.cells, (hl.symm.append_left frees).trans h.all⟩

/-- The pool does not see what the elements in use hold. -/
theorem Pool.congr (h : Pool m a frees live)
    (hm : ∀ p ∈ frees, m' p = m p) : Pool m' a frees live := by
  refine ⟨h.count, h.chain.congr fun p hp => ?_, fun p hp => ?_, h.all⟩
  · unfold freeLink
    rw [hm p hp]
  · rw [hm p hp]
    exact h.cells p hp

/-- What is free and what is in use add up. -/
theorem Pool.length (h : Pool m a frees live) :
    frees.length + live.length = 512 * a.chunks := by
  have hlen := h.all.length_eq
  rwa [List.length_append, List.length_map, List.length_range] at hlen

/-- An element in use is in one of the chunks. -/
theorem Pool.chunk_lt (h : Pool m a frees live) {p : ElemPtr}
    (hp : p ∈ live) : p.chunk < a.chunks := by
  have hall := h.all.mem_iff.mp (List.mem_append_right frees hp)
  obtain ⟨k, hk, rfl⟩ := List.mem_map.mp hall
  have hlt := List.mem_range.mp hk
  show k / 512 < a.chunks
  omega

/-- All of the first chunk is free. -/
theorem symtabGlobalInit_pool (m : Elems) :
    Pool (symtabGlobalInit m).1 (symtabGlobalInit m).2 (chunkFrom 0 0 512)
      [] := by
  refine ⟨rfl, chunkFrom_chain m 0 512 0 rfl,
    fun p hp => chunkFrom_free m hp, ?_⟩
  rw [List.append_nil]
  show (chunkFrom 0 0 512).Perm ((List.range (512 * (0 + 1))).map elemAt)
  rw [elems_succ]
  exact List.Perm.refl _

/-- No element has come back: those in use, the last one first, and then
the free ones are all in order. -/
def InOrder (a : ChunkAllocator) (frees live : List ElemPtr) : Prop :=
  live.reverse ++ frees = (List.range (512 * a.chunks)).map elemAt

/-- So the last one has the number of those before it. -/
theorem InOrder.last {p : ElemPtr} (h : InOrder a frees (p :: live)) :
    p = elemAt live.length := by
  have hget : ((p :: live).reverse ++ frees)[live.length]? = some p := by
    rw [List.reverse_cons, List.append_assoc, List.getElem?_append_right
      (Nat.le_of_eq List.length_reverse), List.length_reverse, Nat.sub_self]
    rfl
  rw [h, List.getElem?_map] at hget
  obtain ⟨k, hk, rfl⟩ := Option.map_eq_some_iff.mp hget
  obtain ⟨_, hk⟩ := List.getElem?_eq_some_iff.mp hk
  rw [← hk, List.getElem_range]

theorem symtabGlobalInit_inOrder (m : Elems) :
    InOrder (symtabGlobalInit m).2 (chunkFrom 0 0 512) [] := by
  show chunkFrom 0 0 512 = (List.range (512 * (0 + 1))).map elemAt
  rw [elems_succ]
  rfl

/-- `npr_chunk_allocator_alloc`: a free element comes into use. -/
theorem Pool.alloc (h : Pool m a frees live) :
    ∃ m' a' p free', chunkAllocatorAlloc m a = .ok (m', a', p)
      ∧ Pool m' a' free' (p :: live) ∧ (∀ q ∈ live, m' q = m q)
      ∧ (InOrder a frees live → InOrder a' free' (p :: live)) := by
  have hchain := h.chain
  unfold chunkAllocatorAlloc
  cases frees with
  | nil =>
      -- all elements are in use: a new chunk, and the first of it
      rw [show a.top = none from hchain]
      have hcell : allocChunk m a.chunks 512 ⟨a.chunks, 0⟩
          = .free (some ⟨a.chunks, 1⟩) := by
        rw [allocChunk_apply]
        exact if_pos ⟨rfl, show 0 < 512 by omega⟩
      refine ⟨allocChunk m a.chunks 512,
        { a with top := some ⟨a.chunks, 1⟩, chunks := a.chunks + 1 },
        ⟨a.chunks, 0⟩, chunkFrom a.chunks 1 511, ?_,
        ⟨h.count, ?_, ?_, ?_⟩, ?_, fun hord => ?_⟩
      · simp only [h.count, hcell]
      · exact chunkFrom_chain m a.chunks 511 1 rfl
      · intro p hp
        have hin := mem_chunkFrom.mp hp
        exact chunkFrom_free m
          (mem_chunkFrom.mpr ⟨hin.1, Nat.zero_le _, by omega⟩)
      · show (chunkFrom a.chunks 1 511 ++ ⟨a.chunks, 0⟩ :: live).Perm
          ((List.range (512 * (a.chunks + 1))).map elemAt)
        rw [elems_succ]
        refine List.perm_middle.trans (List.Perm.trans ?_
          (h.all.append_right (chunkFrom a.chunks 0 512)))
        exact @List.perm_append_comm _ (chunkFrom a.chunks 0 512) _
      · intro q hq
        have hlt := h.chunk_lt hq
        rw [allocChunk_apply]
        exact if_neg (by omega)
      · unfold InOrder
        rw [List.reverse_cons, List.append_assoc]
        show live.reverse ++ chunkFrom a.chunks 0 512
          = (List.range (512 * (a.chunks + 1))).map elemAt
        rw [elems_succ, ← hord, List.append_nil]
  | cons p frees =>
      obtain ⟨htop, hrest⟩ := hchain
      obtain ⟨c, hc⟩ := h.cells p List.mem_cons_self
      rw [freeLink_of hc] at hrest
      refine ⟨m, { a with top := c }, p, frees, ?_, ⟨h.count, hrest, ?_, ?_⟩,
        fun _ _ => rfl, fun hord => ?_⟩
      · simp only [htop, hc]
      · exact fun q hq => h.cells q (List.mem_cons_of_mem _ hq)
      · exact List.perm_middle.trans h.all
      · unfold InOrder
        rw [List.reverse_cons, List.append_assoc]
        exact hord

/-- `npr_chunk_allocator_free`: the element is the first of the chain. -/
theorem Pool.free {p : ElemPtr} (h : Pool m a frees (p :: live)) :
    Pool (chunkAllocatorFree m a p).1 (chunkAllocatorFree m a p).2
      (p :: frees) live := by
  have hother : ∀ q ∈ frees, m.set p (.free a.top) q = m q := by
    intro q hq
    refine set_other _ _ ?_
    intro hqp
    exact h.apart hq (hqp ▸ List.mem_cons_self)
  refine ⟨h.count, ⟨rfl, ?_⟩, ?_, List.perm_middle.symm.trans h.all⟩
  · show Chain (freeLink (m.set p (.free a.top)))
      (freeLink (m.set p (.free a.top)) p) frees
    rw [freeLink_of (set_self m p (.free a.top))]
    refine h.chain.congr fun q hq => ?_
    unfold freeLink
    rw [hother q hq]
  · intro q hq
    by_cases hqp : q = p
    · rw [hqp]
      exact ⟨a.top, set_self m p (.free a.top)⟩
    · have hin := (List.mem_cons.mp hq).resolve_left hqp
      obtain ⟨c, hc⟩ := h.cells q hin
      exact ⟨c, (hother q hin).trans hc⟩

-- ================================================================ statistics

/-- The free chain counted. Induction on it. -/
theorem countFree_ok : ∀ (l : List ElemPtr) {fuel : Nat} {h : Option ElemPtr}
    (n : Word), l.length ≤ fuel → Chain (freeLink m) h l →
    (∀ p ∈ l, ∃ c, m p = .free c) →
    countFree m fuel h n = .ok (n + BitVec.ofNat 32 l.length) := by
  intro l
  induction l with
  | nil =>
      intro fuel h n _ hchain _
      cases hchain
      unfold countFree
      simp
  | cons p l ih =>
      intro fuel h n hfuel hchain hcells
      obtain ⟨rfl, hrest⟩ := hchain
      obtain ⟨c, hc⟩ := hcells p List.mem_cons_self
      rw [freeLink_of hc] at hrest
      cases fuel with
      | zero => exact absurd hfuel (Nat.not_succ_le_zero _)
      | succ fuel =>
          unfold countFree
          simp only [hc]
          rw [ih (n + 1) (Nat.le_of_succ_le_succ hfuel) hrest
            (fun q hq => hcells q (List.mem_cons_of_mem _ hq))]
          rw [List.length_cons, Nat.add_comm l.length, BitVec.ofNat_add,
            ← BitVec.add_assoc]
          rfl

/-- The statistics are the lengths of the two lists. -/
theorem Pool.stat (h : Pool m a frees live) :
    chunkAllocatorStat m a
      = .ok ⟨BitVec.ofNat 32 (512 * a.chunks), BitVec.ofNat 32 a.chunks,
          BitVec.ofNat 32 live.length, BitVec.ofNat 32 frees.length⟩ := by
  have hlen := h.length
  have hfuel : frees.length ≤ a.chunks * a.chunkCount := by
    rw [h.count]
    omega
  have hcount := countFree_ok frees 0 hfuel h.chain h.cells
  unfold chunkAllocatorStat
  rw [hcount, ok_bind]
  have htotal : BitVec.ofNat 32 a.chunks * BitVec.ofNat 32 a.chunkCount
      = BitVec.ofNat 32 (512 * a.chunks) := by
    rw [h.count, ← BitVec.ofNat_mul, Nat.mul_comm]
  have hfree : (0 : Word) + BitVec.ofNat 32 frees.length
      = BitVec.ofNat 32 frees.length := BitVec.zero_add _
  have hused : BitVec.ofNat 32 (512 * a.chunks) - BitVec.ofNat 32 frees.length
      = BitVec.ofNat 32 live.length := by
    rw [← hlen, BitVec.ofNat_add, BitVec.add_comm, BitVec.add_sub_cancel]
  rw [htotal, hfree, hused]

end UdeBench.Npr.SymbolTable
