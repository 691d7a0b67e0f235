/-
A chunk of the chunk allocator: its elements, and what `alloc_chunk`
makes of them.

Where `elem_size * chunk_count` is an `int`, so is every offset, and the
elements lie in the block one behind the other (`slot`). The loop makes
them a chain (`threadElems_ok`), which the block's last element ends.

Where it is none, the block is too small for them, if there is one: the
first element that does not fit is written to all the same
(`allocChunk_eq_ok`).
-/
import UdeBench.Lib.Chains
import UdeBench.Lib.Ints
import UdeBench.Npr.ChunkAlloc

namespace UdeBench.Npr.ChunkAlloc

open Spans ByteMem Ints Chains
open Blocks (Fault Sys Sound Accessible)

-- ================================================================== sizes

/-- The sizes that an allocator may be given. -/
structure ValidSizes (e n : Word) : Prop where
  align : e.toInt % 8 = 0
  elem : 8 ≤ e.toInt
  count : 1 ≤ n.toInt

/-- Sizes whose product is an `int`, in numbers. -/
structure Sizes (e n : Word) : Prop where
  align : e.toNat % 8 = 0
  elem : 8 ≤ e.toNat
  count : 1 ≤ n.toNat
  fits : e.toNat * n.toNat < 2 ^ 31

variable {place : Blocks.Placement} {e n : Word} {s : Sys} {buf : Addr}
  {i : Nat}

/-- An `int` that is positive. -/
theorem toNat_of_pos {x : Word} (h : 0 < x.toInt) :
    x.toInt = x.toNat ∧ x.toNat < 2 ^ 31 := by
  by_cases hlt : x.toNat < 2 ^ 31
  · exact ⟨toInt_of_lt hlt, hlt⟩
  · have hneg := toInt_of_le (Nat.not_lt.mp hlt)
    have hbound := x.isLt
    exact absurd h (by omega)

theorem ValidSizes.sizes (h : ValidSizes e n)
    (hfits : e.toInt * n.toInt < 2 ^ 31) : Sizes e n := by
  obtain ⟨halign, helem, hcount⟩ := h
  obtain ⟨he, _⟩ := toNat_of_pos (x := e) (by omega)
  obtain ⟨hn, _⟩ := toNat_of_pos (x := n) (by omega)
  rw [he] at halign helem hfits
  rw [hn] at hcount hfits
  exact ⟨by omega, by omega, by omega, by exact_mod_cast hfits⟩

theorem Sizes.count_lt (h : Sizes e n) : n.toNat < 2 ^ 31 := by
  have hpos : 0 < e.toNat := Nat.lt_of_lt_of_le (by decide) h.elem
  have hle := Nat.le_mul_of_pos_left n.toNat hpos
  have hfits := h.fits
  omega

/-- An element ends within the chunk. -/
theorem elem_room (e : Word) (hi : i < n.toNat) :
    i * e.toNat + e.toNat ≤ e.toNat * n.toNat := by
  have hle := Nat.mul_le_mul_right e.toNat (Nat.succ_le_of_lt hi)
  rw [Nat.succ_mul, Nat.mul_comm n.toNat] at hle
  exact hle

/-- The size that `alloc_chunk` asks for. -/
def dataSize (e n : Word) : Blocks.Size := (e * n).signExtend 64

theorem Sizes.toNat_dataSize (h : Sizes e n) :
    (dataSize e n).toNat = e.toNat * n.toNat := by
  have hmul : (e * n).toNat = e.toNat * n.toNat :=
    toNat_mul (Nat.lt_trans h.fits (by decide))
  unfold dataSize
  rw [toNat_size (by rw [hmul]; exact h.fits), hmul]

-- =============================================================== elements

/-- The `i`-th element of a chunk. -/
def slot (buf : Addr) (e : Word) (i : Nat) : Addr :=
  buf + BitVec.ofNat 64 (i * e.toNat)

/-- The elements of a chunk. -/
def slots (buf : Addr) (e n : Word) : List Addr :=
  (List.range n.toNat).map (slot buf e)

/-- The range of an element. -/
def elemSpan (e : Word) (p : Addr) : Span := (p.toNat, e.toNat)

theorem mem_slots {p : Addr} :
    p ∈ slots buf e n ↔ ∃ i, i < n.toNat ∧ slot buf e i = p := by
  unfold slots
  rw [List.mem_map]
  simp only [List.mem_range]

/-- The offset the code computes. -/
theorem elemAt_eq (h : Sizes e n) (buf : Addr) (hi : i < n.toNat) :
    elemAt buf e (BitVec.ofNat 32 i) = slot buf e i := by
  have hroom := elem_room e hi
  have hfits := h.fits
  have hcount := h.count_lt
  have hword : (BitVec.ofNat 32 i).toNat = i := by
    rw [BitVec.toNat_ofNat]
    exact Nat.mod_eq_of_lt (by omega)
  have hmul : (BitVec.ofNat 32 i * e).toNat = i * e.toNat := by
    rw [toNat_mul] <;> rw [hword]
    omega
  unfold elemAt slot
  congr 1
  apply BitVec.eq_of_toNat_eq
  rw [toNat_size (by rw [hmul]; omega), hmul, BitVec.toNat_ofNat]
  exact (Nat.mod_eq_of_lt (by omega)).symm

/-- One more round of the loop. -/
theorem threadElems_succ (s : Sys) (buf : Addr) (e : Word) (k : Nat) :
    threadElems s buf e (k + 1) = (do
      let s ← threadElems s buf e k
      Blocks.store s (elemAt buf e (BitVec.ofNat 32 k))
        (elemAt buf e (BitVec.ofNat 32 (k + 1)))) := by
  have hnext : BitVec.ofNat 32 k + 1 = BitVec.ofNat 32 (k + 1) :=
    (BitVec.ofNat_add k 1).symm
  unfold threadElems
  rw [List.range_succ, List.foldlM_append]
  simp only [List.foldlM_cons, List.foldlM_nil, bind_pure, hnext]

section
variable (h : Sizes e n) (hsound : Sound s)
  (hb : ⟨buf, dataSize e n⟩ ∈ s.live)
include h hsound hb

/-- Where an element lies. -/
theorem toNat_slot (hi : i < n.toNat) :
    (slot buf e i).toNat = buf.toNat + i * e.toNat := by
  obtain ⟨_, _, hbound, _⟩ := hsound.placed _ hb
  have hroom := elem_room e hi
  have hsize := h.toNat_dataSize
  simp only at hbound
  have hoff : (BitVec.ofNat 64 (i * e.toNat)).toNat = i * e.toNat := by
    rw [BitVec.toNat_ofNat]
    exact Nat.mod_eq_of_lt (by omega)
  unfold slot
  rw [BitVec.toNat_add, hoff]
  exact Nat.mod_eq_of_lt (by omega)

theorem slot_accessible (hi : i < n.toNat) :
    Accessible s (slot buf e i) := by
  refine Blocks.accessible_of_mem hsound hb
    (toNat_slot h hsound hb hi) ?_ ?_
  · rw [Nat.mul_mod, h.align, Nat.mul_zero, Nat.zero_mod]
  · have hroom := elem_room e hi
    have helem := h.elem
    have hsize := h.toNat_dataSize
    simp only
    omega

theorem slot_ne_zero (hi : i < n.toNat) : slot buf e i ≠ 0 := by
  obtain ⟨hne, _, _, _⟩ := hsound.placed _ hb
  intro hzero
  have htoNat := toNat_slot h hsound hb hi
  rw [hzero] at htoNat
  have h0 : (0 : Addr).toNat = 0 := rfl
  exact hne (BitVec.eq_of_toNat_eq (by simp only; omega))

/-- An element lies in its chunk. -/
theorem slot_within (hi : i < n.toNat) :
    buf.toNat ≤ (slot buf e i).toNat
      ∧ (slot buf e i).toNat + e.toNat
        ≤ buf.toNat + (dataSize e n).toNat := by
  have hroom := elem_room e hi
  rw [toNat_slot h hsound hb hi, h.toNat_dataSize]
  omega

/-- Elements lie apart. -/
theorem slot_apart {j : Nat} (hij : i < j) (hj : j < n.toNat) :
    Apart (elemSpan e (slot buf e i)) (elemSpan e (slot buf e j)) := by
  have hle := Nat.mul_le_mul_right e.toNat (Nat.succ_le_of_lt hij)
  rw [Nat.succ_mul] at hle
  left
  unfold elemSpan
  simp only
  rw [toNat_slot h hsound hb (Nat.lt_trans hij hj),
    toNat_slot h hsound hb hj]
  omega

theorem slots_apart : (slots buf e n).Pairwise fun p q =>
    Apart (elemSpan e p) (elemSpan e q) := by
  unfold slots
  rw [List.pairwise_map]
  refine List.Pairwise.imp_of_mem ?_ List.pairwise_lt_range
  intro i j _ hj hij
  exact slot_apart h hsound hb hij (List.mem_range.mp hj)

-- ============================================================== the loop

/-- The first `k` elements made a chain. Induction on them. -/
theorem threadElems_ok : ∀ k, k < n.toNat →
    ∃ m', threadElems s buf e k = .ok { s with mem := m' }
      ∧ Within [(buf.toNat, (dataSize e n).toNat)] s.mem m'
      ∧ ∀ i, i < k → m'.load64 (slot buf e i) = slot buf e (i + 1) := by
  intro k
  induction k with
  | zero =>
      intro _
      exact ⟨s.mem, rfl, Within.refl _ _, fun i hi => absurd hi (by omega)⟩
  | succ k ih =>
      intro hk
      have hk' : k < n.toNat := by omega
      obtain ⟨m', hm', hwithin, hlinks⟩ := ih hk'
      have hacc : Accessible { s with mem := m' } (slot buf e k) :=
        (Blocks.accessible_mem m').mpr (slot_accessible h hsound hb hk')
      have hinside := slot_within h hsound hb hk'
      have helem := h.elem
      refine ⟨m'.store64 (slot buf e k) (slot buf e (k + 1)), ?_, ?_, ?_⟩
      · rw [threadElems_succ, hm', elemAt_eq h buf hk', elemAt_eq h buf hk]
        exact Blocks.store_ok _ hacc
      · exact hwithin.trans (within_store64 (List.mem_singleton.mpr rfl)
          (by simp only; omega) (by simp only; omega) _ _)
      · intro i hi
        rcases Nat.lt_succ_iff_lt_or_eq.mp hi with hik | rfl
        · rw [← hlinks i hik]
          apply Agree.load64
          apply agree_store64
          have hapart := slot_apart h hsound hb hik hk'
          unfold Apart elemSpan span64 at *
          simp only at *
          omega
        · exact load64_store64 _ _ _

end

-- ============================================================= alloc_chunk

/-- A chunk's header. -/
def headerSpan (c : Addr) : Span := (c.toNat, 16)

/-- What `alloc_chunk` leaves: a header and a block of elements, chained
from the first to the last. -/
structure NewChunk (e n : Word) (s s' : Sys) (c buf : Addr) : Prop where
  live : s'.live = ⟨c, sizeofChunk⟩ :: ⟨buf, dataSize e n⟩ :: s.live
  sound : Sound s'
  taken : s'.taken = s.taken
  freed : s'.freed = s.freed
  within : Within [headerSpan c, (buf.toNat, (dataSize e n).toNat)] s.mem
    s'.mem
  data : s'.mem.load64 c = buf
  chain : s'.mem.load64 (chainOf c) = 0
  free : Threaded 0 s'.mem buf (slots buf e n)

theorem NewChunk.header_mem {s' : Sys} {c : Addr}
    (h : NewChunk e n s s' c buf) : ⟨c, sizeofChunk⟩ ∈ s'.live := by
  rw [h.live]
  exact List.mem_cons_self

theorem NewChunk.data_mem {s' : Sys} {c : Addr}
    (h : NewChunk e n s s' c buf) : ⟨buf, dataSize e n⟩ ∈ s'.live := by
  rw [h.live]
  exact List.mem_cons_of_mem _ List.mem_cons_self

/-- The two pointers of a header. -/
theorem toNat_chainOf {c : Addr} (hsound : Sound s)
    (hc : ⟨c, sizeofChunk⟩ ∈ s.live) : (chainOf c).toNat = c.toNat + 8 := by
  obtain ⟨_, _, hbound, _⟩ := hsound.placed _ hc
  have h8 : (8 : Addr).toNat = 8 := rfl
  simp only at hbound
  unfold chainOf
  rw [BitVec.toNat_add, h8]
  exact Nat.mod_eq_of_lt (by omega)

theorem header_accessible {c : Addr} (hsound : Sound s)
    (hc : ⟨c, sizeofChunk⟩ ∈ s.live) :
    Accessible s c ∧ Accessible s (chainOf c) :=
  ⟨Blocks.accessible_of_mem hsound hc (d := 0) rfl rfl
      (show 0 + 8 ≤ sizeofChunk.toNat by decide),
    Blocks.accessible_of_mem hsound hc (d := 8) (toNat_chainOf hsound hc) rfl
      (show 8 + 8 ≤ sizeofChunk.toNat by decide)⟩

theorem within_header {c a : Addr} {l : List Span} (hl : headerSpan c ∈ l)
    (ha : a.toNat = c.toNat ∨ a.toNat = c.toNat + 8) (m : ByteMem)
    (v : Addr) : Within l m (m.store64 a v) := by
  refine within_store64 hl ?_ ?_ m v
  · show c.toNat ≤ _
    omega
  · show _ ≤ c.toNat + 16
    omega

/-- The number of rounds of the loop. -/
theorem rounds_eq (hcount : 1 ≤ n.toNat) (hlt : n.toNat < 2 ^ 31) :
    n - 1 = BitVec.ofNat 32 (n.toNat - 1)
      ∧ (n - 1).toInt.toNat = n.toNat - 1 := by
  have h1 : (1 : Word).toNat = 1 := rfl
  have hsub : (n - 1).toNat = n.toNat - 1 := toNat_sub (by rw [h1]; omega)
  constructor
  · apply BitVec.eq_of_toNat_eq
    rw [hsub, BitVec.toNat_ofNat]
    exact (Nat.mod_eq_of_lt (by omega)).symm
  · rw [toInt_of_lt (by omega), Int.toNat_natCast, hsub]

/-- The elements of a block made a chain. -/
theorem threaded_slots (h : Sizes e n) (hsound : Sound s)
    (hb : ⟨buf, dataSize e n⟩ ∈ s.live) :
    ∃ m', (do
        let s ← threadElems s buf e (n - 1).toInt.toNat
        Blocks.store s (elemAt buf e (n - 1)) 0)
        = .ok { s with mem := m' }
      ∧ Within [(buf.toNat, (dataSize e n).toNat)] s.mem m'
      ∧ Threaded 0 m' buf (slots buf e n) := by
  obtain ⟨hlast, hrounds⟩ := rounds_eq h.count h.count_lt
  obtain ⟨k, hk⟩ := Nat.exists_eq_add_of_le h.count
  have hk' : n.toNat - 1 = k := by omega
  have hkn : k < n.toNat := by omega
  obtain ⟨m', hm', hwithin, hlinks⟩ := threadElems_ok h hsound hb k hkn
  have hacc : Accessible { s with mem := m' } (slot buf e k) :=
    (Blocks.accessible_mem m').mpr (slot_accessible h hsound hb hkn)
  have hinside := slot_within h hsound hb hkn
  have helem := h.elem
  rw [hrounds, hk', hlast, hk', hm', elemAt_eq h buf hkn]
  refine ⟨_, Blocks.store_ok 0 hacc, ?_, ?_⟩
  · exact hwithin.trans (within_store64 (List.mem_singleton.mpr rfl)
      (by simp only; omega) (by simp only; omega) _ _)
  · have hfirst : slot buf e 0 = buf := by
      unfold slot
      rw [Nat.zero_mul]
      exact BitVec.add_zero buf
    have hchain := threaded_array 0 (m'.store64 (slot buf e k) 0) k
      (slot buf e)
      (fun i hi => slot_ne_zero h hsound hb (by omega)) ?_ ?_
    · rw [hfirst] at hchain
      unfold slots
      rwa [hk, Nat.add_comm 1 k]
    · intro i hi
      rw [addr_zero, ← hlinks i hi]
      apply Agree.load64
      apply agree_store64
      have hapart := slot_apart h hsound hb hi hkn
      unfold Apart elemSpan span64 at *
      simp only at *
      omega
    · rw [addr_zero]
      exact load64_store64 _ _ _

/-- A chunk is made of two blocks. -/
theorem allocChunk_yields (place : Blocks.Placement) (h : Sizes e n)
    (hsound : Sound s) :
    Yields Blocks.OutOfMemory (allocChunk place s e n) fun r =>
      ∃ buf, NewChunk e n s r.1 r.2 buf := by
  have hsize : (dataSize e n).toNat ≤ Blocks.ptrdiffMax := by
    have hfits := h.fits
    rw [h.toNat_dataSize]
    unfold Blocks.ptrdiffMax
    omega
  unfold allocChunk
  refine (Blocks.malloc_yields place _ hsound hsize).bind ?_
  rintro ⟨s₁, buf⟩ ⟨heq₁, hsound₁, _⟩
  change s₁ = _ at heq₁
  have hb : ⟨buf, dataSize e n⟩ ∈ s₁.live := by
    rw [heq₁]
    exact List.mem_cons_self
  obtain ⟨m₂, hm₂, hwithin₂, hchain₂⟩ := threaded_slots h hsound₁ hb
  have hsound₂ : Sound { s₁ with mem := m₂ } := hsound₁.congr rfl rfl
  simp only [← bind_assoc]
  rw [bind_assoc, hm₂]
  refine (Blocks.malloc_yields place sizeofChunk hsound₂
    (by decide)).bind ?_
  rintro ⟨s₃, c⟩ ⟨heq₃, hsound₃, hfresh⟩
  change s₃ = _ at heq₃
  have hc : ⟨c, sizeofChunk⟩ ∈ s₃.live := by
    rw [heq₃]
    exact List.mem_cons_self
  obtain ⟨hdata, hchain⟩ := header_accessible hsound₃ hc
  have hoff := toNat_chainOf hsound₃ hc
  simp only [Blocks.store_ok 0 hchain, bind, Except.bind,
    Blocks.store_ok buf ((Blocks.accessible_mem _).mpr hdata)]
  -- the header lies apart from the elements
  have hlive : s₃.live
      = ⟨c, sizeofChunk⟩ :: ⟨buf, dataSize e n⟩ :: s.live := by
    rw [heq₃, heq₁]
  have happart : Apart (headerSpan c) (buf.toNat, (dataSize e n).toNat) :=
    (hfresh.2 ⟨buf, dataSize e n⟩ hb).2
  have hmem₃ : s₃.mem = m₂ := by rw [heq₃]
  have hmem₁ : s₁.mem = s.mem := by rw [heq₁]
  refine ⟨buf, hlive, hsound₃.congr rfl rfl, by rw [heq₃, heq₁],
    by rw [heq₃, heq₁], ?_, load64_store64 _ _ _, ?_, ?_⟩
  · rw [← hmem₁, hmem₃]
    have helems : Within [headerSpan c, (buf.toNat, (dataSize e n).toNat)]
        s₁.mem m₂ :=
      hwithin₂.mono fun x hx =>
        ⟨x, List.mem_cons_of_mem _ hx, Nat.le_refl _, Nat.le_refl _⟩
    refine Within.trans (helems.trans ?_)
      (within_header List.mem_cons_self (.inl rfl) _ buf)
    exact within_header List.mem_cons_self (.inr hoff) m₂ 0
  · rw [← load64_store64 s₃.mem (chainOf c) 0]
    apply Agree.load64
    rw [load64_store64]
    apply agree_store64
    right
    unfold span64
    simp only
    omega
  · refine hchain₂.congr fun p hp => ?_
    obtain ⟨i, hi, rfl⟩ := mem_slots.mp hp
    obtain ⟨hlo, hhi⟩ := slot_within h hsound₁ hb hi
    have helem := h.elem
    rw [hmem₃, addr_zero]
    apply Agree.load64
    refine (agree_store64 ?_ m₂ 0).trans (agree_store64 ?_ _ buf)
    · unfold Apart headerSpan span64 at *
      simp only at *
      omega
    · unfold Apart headerSpan span64 at *
      simp only at *
      omega

-- ================================================================ overflow

/-- Every round of the loop has stored its element. Induction on the
rounds. -/
theorem threadElems_eq_ok : ∀ {k : Nat} {s' : Sys},
    threadElems s buf e k = .ok s' → s'.live = s.live
      ∧ ∀ i, i < k → Accessible s (elemAt buf e (BitVec.ofNat 32 i)) := by
  intro k
  induction k with
  | zero =>
      intro s' hs
      cases hs
      exact ⟨rfl, fun i hi => absurd hi (Nat.not_lt_zero i)⟩
  | succ k ih =>
      intro s' hs
      rw [threadElems_succ] at hs
      obtain ⟨s₁, hs₁, hstore⟩ := bind_eq_ok hs
      obtain ⟨hlive, hbefore⟩ := ih hs₁
      obtain ⟨hacc, rfl⟩ := Blocks.store_eq_ok hstore
      refine ⟨hlive, fun i hi => ?_⟩
      rcases Nat.lt_succ_iff_lt_or_eq.mp hi with hik | rfl
      · exact hbefore i hik
      · exact (Blocks.Accessible.congr hlive).mp hacc

/-- An element that starts behind its block is nowhere in it: its offset
is too large, or negative. -/
theorem not_accessible {size : Blocks.Size}
    (hlive : s.live = [⟨buf, size⟩])
    (hbound : buf.toNat + size.toNat < 2 ^ 63)
    (hsize : size.toNat < 2 ^ 31) (hle : size.toNat ≤ i * e.toNat)
    (hlt : i * e.toNat < 2 ^ 32) (hi : i < 2 ^ 32) :
    ¬ Accessible s (elemAt buf e (BitVec.ofNat 32 i)) := by
  rintro ⟨_, b, hb, hlo, hhi⟩
  rw [hlive] at hb
  obtain rfl := List.mem_singleton.mp hb
  simp only at hlo hhi
  have hword : (BitVec.ofNat 32 i).toNat = i := by
    rw [BitVec.toNat_ofNat]
    exact Nat.mod_eq_of_lt hi
  have hmul : (BitVec.ofNat 32 i * e).toNat = i * e.toNat := by
    rw [toNat_mul] <;> rw [hword]
    exact hlt
  unfold elemAt at hlo hhi
  rw [BitVec.toNat_add] at hlo hhi
  by_cases hpos : i * e.toNat < 2 ^ 31
  · rw [toNat_size (by rw [hmul]; exact hpos), hmul] at hlo hhi
    omega
  · rw [toNat_size_neg (by rw [hmul]; omega), hmul] at hlo hhi
    omega

/-- The first chunk is only made where its size is an `int`. -/
theorem allocChunk_eq_ok {r : Sys × Addr} (h : ValidSizes e n)
    (hlive : s.live = []) (hr : allocChunk place s e n = .ok r) :
    e.toInt * n.toInt < 2 ^ 31 := by
  obtain ⟨_, helem, hcount⟩ := h
  obtain ⟨he, helt⟩ := toNat_of_pos (x := e) (by omega)
  obtain ⟨hn, hnlt⟩ := toNat_of_pos (x := n) (by omega)
  obtain ⟨⟨s₁, buf⟩, hmalloc, hr⟩ := bind_eq_ok hr
  obtain ⟨s₂, hthread, hr⟩ := bind_eq_ok hr
  obtain ⟨s₃, hlast, _⟩ := bind_eq_ok hr
  obtain ⟨hmax, ⟨_, _, hbound, _⟩, heq⟩ := Blocks.malloc_eq_ok hmalloc
  change s₁ = _ at heq
  rw [he, hn]
  by_contra hbig
  have hbig : 2 ^ 31 ≤ e.toNat * n.toNat := by
    exact_mod_cast Int.not_lt.mp hbig
  -- the block is as large as the product that has wrapped around
  have hwrap : (e * n).toNat < 2 ^ 31 := by
    by_contra hneg
    rw [toNat_size_neg (Nat.not_lt.mp hneg)] at hmax
    unfold Blocks.ptrdiffMax at hmax
    omega
  have hsize := toNat_size hwrap
  have hmod : (e * n).toNat = e.toNat * n.toNat % 2 ^ 32 := BitVec.toNat_mul _ _
  generalize hW : (e * n).toNat = W at hwrap hsize hmod
  have hover : 2 ^ 32 ≤ e.toNat * n.toNat := by omega
  -- the first element that starts behind it
  have hpos : 0 < e.toNat := by omega
  obtain ⟨i, hlo, hhi⟩ : ∃ i, W ≤ i * e.toNat ∧ i * e.toNat < W + e.toNat := by
    refine ⟨(W + (e.toNat - 1)) / e.toNat, ?_, ?_⟩
    · have hdiv := Nat.div_add_mod (W + (e.toNat - 1)) e.toNat
      have hrem := Nat.mod_lt (W + (e.toNat - 1)) hpos
      rw [Nat.mul_comm] at hdiv
      omega
    · have hdiv := Nat.div_mul_le_self (W + (e.toNat - 1)) e.toNat
      omega
  have hin : i < n.toNat := by
    have hlt : i * e.toNat < n.toNat * e.toNat := by
      rw [Nat.mul_comm n.toNat]
      omega
    exact Nat.lt_of_mul_lt_mul_right hlt
  have hlive₁ : s₁.live = [⟨buf, (e * n).signExtend 64⟩] := by
    rw [heq, hlive]
  simp only at hbound
  refine not_accessible (i := i) (e := e) hlive₁ hbound (by omega) (by omega)
    (by omega) (by omega) ?_
  -- it is stored all the same
  obtain ⟨hword, hrounds⟩ := rounds_eq (n := n) (by omega) hnlt
  rw [hrounds] at hthread
  obtain ⟨hlive₂, hstored⟩ := threadElems_eq_ok hthread
  rcases Nat.lt_or_ge i (n.toNat - 1) with hi | hi
  · exact hstored i hi
  · obtain ⟨hacc, _⟩ := Blocks.store_eq_ok hlast
    have hi' : i = n.toNat - 1 := by omega
    rw [hi', ← hword]
    exact (Blocks.Accessible.congr hlive₂).mp hacc

end UdeBench.Npr.ChunkAlloc
