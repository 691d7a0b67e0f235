/-
A heap whose tags are right and whose chunks leave no gap.

`Tight` adds to the heap of Chunks what a reader of the tags relies on:
every chunk has 32 bytes or more, the chunks of a region follow each
other without a gap, every border has the tag it should have, and no two
free chunks touch.

`npr_heap_alloc` keeps it where it takes from the end of a region
(`Tight.found_ok`): the code writes neither the bit for an allocated chunk
behind the one it hands out whole, nor a new size into the tag at the
end of a rest, so nothing may be behind it. `npr_heap_free` keeps it
where the ends of pages inside of a region do not deceive it
(`Tight.heapFree_ok`).
-/
import UdeBench.Npr.Proofs.Tags

namespace UdeBench.Npr.FirstFit

open Spans ByteMem

/-- Chunks without gaps, their tags right. -/
structure Snug (k : Nat) (h : Heap) (os : Os) (m : ByteMem)
    (live : List Alloc) (free : List Chunk) (held : List Span) : Prop where
  layout : Layout k h os live free held
  covers : Covers 32 (os.mapped.map Region.span) (pieces k live free held)
  small : ∀ a ∈ live, ¬ a.Large k
  big : ∀ q ∈ pieces k live free held, 32 ≤ q.2
  tagged : Tagged m (cells k live free)
  lonely : ∀ c ∈ free, ∀ d ∈ free,
    d.addr.toNat ≠ c.addr.toNat + c.size.toNat
  regions : ∀ r ∈ os.mapped, r.size.toNat % 2 ^ k = 0
    ∧ r.size.toNat ≤ 2 ^ 30

/-- A heap of such chunks. -/
structure Tight (k : Nat) (s : Sys) (live : List Alloc) (free : List Chunk)
    (held : List Span) : Prop
    extends Snug k s.heap s.os s.mem live free held where
  inv : Inv k s live free held

section
variable {k : Nat} {s s' : Sys} {live : List Alloc} {free : List Chunk}
  {held : List Span} {m : ByteMem}

-- =============================================================== borders

/-- No chunk starts where a region ends. -/
theorem Layout.none_at_end {h : Heap} {os : Os}
    (hl : Layout k h os live free held) {q : Span}
    (hq : q ∈ pieces k live free held) {r : Region} (hr : r ∈ os.mapped) :
    q.1 ≠ r.base.toNat + r.size.toNat :=
  hl.tiling.none_at_end hq (List.mem_map_of_mem (f := Region.span) hr)
    (by decide)

/-- No chunk ends where the first of a region starts. -/
theorem Layout.none_before_first {h : Heap} {os : Os}
    (hl : Layout k h os live free held) {q : Span}
    (hq : q ∈ pieces k live free held) {r : Region} (hr : r ∈ os.mapped) :
    q.1 + q.2 ≠ r.base.toNat + 32 :=
  hl.tiling.none_before_first hq (List.mem_map_of_mem (f := Region.span) hr)
    (by decide) (Nat.le_of_lt (hl.regions r hr).2.1)

/-- No two pieces start at one place. -/
theorem Layout.start_unique {h : Heap} {os : Os}
    (hl : Layout k h os live free held) {q : Span} (hq : q ∈ held)
    {z : Cell} (hz : z ∈ cells k live free) : z.span.1 ≠ q.1 := by
  have hapart := hl.held_cell hq hz
  obtain ⟨_, _, hpos, _⟩ := hl.piece_bounds (Layout.held_mem hq)
  obtain ⟨_, _, hpos', _⟩ := hl.piece_bounds (cell_piece hz)
  unfold Apart at hapart
  omega

/-- What keeps off the tag in front, too, keeps off what is in hand. -/
theorem OffLinks.slot {h : Heap} {m' : ByteMem} {q : Span}
    (hout : OffLinks h free [q] m m') (x : Span) :
    OffLinks h free [q, x] m m' := by
  refine hout.mono (fun c hc => .inl hc) fun t ht => ?_
  rw [List.mem_singleton.mp ht]
  exact ⟨q, List.mem_cons_self, Nat.le_refl _, Nat.le_refl _⟩

/-- The tags of the others, after a change of what is in hand, of the
links and of the tag in front. -/
theorem Snug.tagged_off {h : Heap} {os : Os} {m m' : ByteMem}
    (ht : Snug k h os m live free held) {q : Span} (hq : q ∈ held)
    (hout : OffLinks h free [q, (q.1 - 4, 4)] m m') :
    Tagged m' (cells k live free) := by
  have hl := ht.layout
  obtain ⟨hqlo, _, _, hqmod, _⟩ := hl.piece_bounds (Layout.held_mem hq)
  refine ht.tagged.congr fun x hx y hy hadj => ?_
  rw [hadj]
  have hpiece : x.span ∈ pieces k live free held := cell_piece hx
  have hpiece' : y.span ∈ pieces k live free held := cell_piece hy
  have hsize := ht.big _ hpiece
  obtain ⟨_, _, _, hmod, _⟩ := hl.piece_bounds hpiece'
  have hstart := hl.start_unique hq hy
  have hapart := hl.held_cell hq hx
  refine hl.endWord_off ht.big hout hx fun p hp => ?_
  rcases List.mem_cons.mp hp with rfl | hp
  · unfold Apart at *
    simp only
    omega
  · rw [List.mem_singleton.mp hp]
    unfold Apart
    simp only
    omega

/-- The tag in front of what is in hand, after a change elsewhere. -/
theorem Snug.front_off {h : Heap} {os : Os} {m m' : ByteMem}
    (ht : Snug k h os m live free held) {q : Span} (hq : q ∈ held)
    {next : Bool} (hfront : Front m (cells k live free) q.1 next)
    (hout : OffLinks h free [q] m m') :
    Front m' (cells k live free) q.1 next := by
  intro x hx hend
  have hl := ht.layout
  have hapart := hl.held_cell hq hx
  have hsize := ht.big _ (cell_piece hx)
  rw [← hend, hl.endWord_off ht.big hout hx, hend]
  · exact hfront x hx hend
  · intro p hp
    rw [List.mem_singleton.mp hp]
    unfold Apart at *
    simp only
    omega

-- ================================================================ alloc

/-- Cells with a free chunk more. -/
theorem mem_cells_insert {l₁ l₂ : List Chunk} {c : Chunk} {z : Cell} :
    z ∈ cells k live (l₁ ++ c :: l₂)
      ↔ z ∈ (⟨c.span, false⟩ : Cell) :: cells k live (l₁ ++ l₂) := by
  rw [List.mem_cons, mem_cells, mem_cells]
  simp only [mem_insert]
  constructor
  · rintro (h | ⟨d, rfl | hd, rfl⟩)
    · exact .inr (.inl h)
    · exact .inl rfl
    · exact .inr (.inr ⟨d, hd, rfl⟩)
  · rintro (rfl | h | ⟨d, hd, rfl⟩)
    · exact .inr ⟨c, .inl rfl, rfl⟩
    · exact .inl h
    · exact .inr ⟨d, .inr hd, rfl⟩

/-- A chunk taken from the free list: the tag in front of it says that it
is free, and so it stays until it is written. -/
theorem Tight.take {l₁ l₂ : List Chunk} {c : Chunk}
    (ht : Tight k s live (l₁ ++ c :: l₂) []) :
    Tight k { s with mem := delFree s.mem c.addr } live (l₁ ++ l₂) [c.span]
      ∧ (delFree s.mem c.addr).load64 c.addr = c.size
      ∧ Front (delFree s.mem c.addr) (cells k live (l₁ ++ l₂)) c.addr.toNat
        false := by
  obtain ⟨hinv, hout, hload⟩ := ht.inv.take
  have hpieces : ∀ q, q ∈ pieces k live (l₁ ++ c :: l₂) []
      ↔ q ∈ pieces k live (l₁ ++ l₂) [c.span] := fun q =>
    pieces_take.mem_iff
  have hsub : ∀ d ∈ l₁ ++ l₂, d ∈ l₁ ++ c :: l₂ := fun d hd =>
    mem_insert.mpr (.inr hd)
  have htagged : Tagged s.mem
      ((⟨c.span, false⟩ : Cell) :: cells k live (l₁ ++ l₂)) :=
    ht.tagged.mono fun z hz => mem_cells_insert.mpr hz
  obtain ⟨htagged, hfront, _⟩ := htagged.uncons
  have hbig : ∀ q ∈ pieces k live (l₁ ++ l₂) [c.span], 32 ≤ q.2 := fun q hq =>
    ht.big q ((hpieces q).mpr hq)
  -- the tags are off the links
  have hword : ∀ x ∈ cells k live (l₁ ++ l₂),
      endWord (delFree s.mem c.addr) (x.span.1 + x.span.2)
        = endWord s.mem (x.span.1 + x.span.2) := fun x hx =>
    hinv.layout.endWord_off hbig hout hx fun q hq => by cases hq
  refine ⟨⟨⟨hinv.layout, ht.covers.mono fun q hq => (hpieces q).mp hq,
    ht.small, hbig, htagged.congr fun x hx y hy hadj => ?_, fun d hd e he =>
      ht.lonely d (hsub d hd) e (hsub e he), ht.regions⟩, hinv⟩, hload, ?_⟩
  · rw [hadj]
    exact hword x hx
  · intro x hx hend
    have hsame := hword x hx
    rw [hend] at hsame
    rw [hsame]
    exact hfront x hx hend

/-- A new region: its chunk in hand, nothing in front of it. -/
theorem Tight.opened {r : Region} {c : Chunk}
    (ht : Tight k s live free []) (hopen : Opened k s s' live free r c)
    (hmod : r.size.toNat % 2 ^ k = 0) (hsize : r.size.toNat ≤ 2 ^ 30) :
    Tight k s' live free [c.span]
      ∧ Front s'.mem (cells k live free) c.addr.toNat false := by
  have hl := hopen.inv.layout
  have hmapped : s'.os.mapped = r :: s.os.mapped := by rw [hopen.os]
  have hpage := page_bounds hl.shift
  have hroom := hopen.page
  refine ⟨⟨⟨hl, ?_, ht.small, ?_, ?_, ht.lonely, ?_⟩, hopen.inv⟩, ?_⟩
  · rw [hmapped, List.map_cons]
    have hcover := ht.covers.addRegion (r := r.span)
      (show 32 ≤ r.size.toNat by omega)
    have hspan : (r.span.1 + 32, r.span.2 - 32) = c.span := hopen.span.symm
    rw [hspan] at hcover
    exact hcover
  · intro q hq
    rcases mem_pieces.mp hq with hq | hq
    · rw [List.mem_singleton.mp hq, hopen.span]
      simp only
      omega
    · exact ht.big q (mem_pieces.mpr (.inr hq))
  · refine ht.tagged.congr fun x hx y hy hadj => ?_
    have hpiece : x.span ∈ pieces k live free [] := cell_piece hx
    obtain ⟨_, hhi, _⟩ := ht.layout.piece_bounds hpiece
    have hbig := ht.big _ hpiece
    apply endWord_agree (by omega)
    refine (hopen.agree _ hpiece).mono ?_ ?_
    all_goals simp only; omega
  · rw [hmapped]
    intro q hq
    rcases List.mem_cons.mp hq with rfl | hq
    · exact ⟨hmod, hsize⟩
    · exact ht.regions q hq
  · intro x hx hend
    have hr : r ∈ s'.os.mapped := by
      rw [hmapped]
      exact List.mem_cons_self
    have haddr : c.addr.toNat = r.base.toNat + 32 :=
      congrArg Prod.fst hopen.span
    rw [haddr] at hend
    exact absurd hend (hl.none_before_first
      (cell_piece hx) hr)

/-- The cells with one more allocation, or a free chunk at the end of the
list. -/
theorem cells_cons {a : Alloc} :
    cells k (a :: live) free = ⟨a.chunk k, true⟩ :: cells k live free := rfl

theorem mem_cells_append {free' : List Chunk} {z : Cell} :
    z ∈ cells k live (free ++ free')
      ↔ z ∈ cells k live free ∨ ∃ d ∈ free', z = ⟨d.span, false⟩ := by
  rw [mem_cells, mem_cells]
  simp only [List.mem_append]
  constructor
  · rintro (h | ⟨d, hd | hd, rfl⟩)
    · exact .inl (.inl h)
    · exact .inl (.inr ⟨d, hd, rfl⟩)
    · exact .inr ⟨d, hd, rfl⟩
  · rintro ((h | ⟨d, hd, rfl⟩) | ⟨d, hd, rfl⟩)
    · exact .inl h
    · exact .inr ⟨d, .inl hd, rfl⟩
    · exact .inr ⟨d, .inr hd, rfl⟩

/-- What is left of a chunk, in numbers. -/
theorem Layout.rest_span {h : Heap} {os : Os} {c : Chunk} {a : Size}
    (hl : Layout k h os live free held)
    (hc : c.span ∈ pieces k live free held) {d : Chunk} (hd : d ∈ c.rest a) :
    a.toNat < c.size.toNat
      ∧ d.span = (c.addr.toNat + a.toNat, c.size.toNat - a.toNat) := by
  obtain ⟨hlt, rfl⟩ := Chunk.mem_rest hd
  have hlt' : a.toNat < c.size.toNat := hlt
  refine ⟨hlt', ?_⟩
  unfold Chunk.span
  rw [(hl.front_toNat hc (Nat.le_of_lt hlt')).1,
    BitVec.toNat_sub_of_le (BitVec.le_of_lt hlt)]

theorem mem_pieces_alloc {b : Alloc} {free' : List Chunk} {q : Span} :
    q ∈ pieces k (b :: live) (free ++ free') []
      ↔ q = b.chunk k ∨ (∃ d ∈ free', q = d.span)
        ∨ q ∈ pieces k live free [] := by
  rw [mem_pieces, mem_pieces]
  constructor
  · rintro (hq | ⟨a, ha, rfl⟩ | ⟨d, hd, rfl⟩)
    · cases hq
    · rcases List.mem_cons.mp ha with rfl | ha
      · exact .inl rfl
      · exact .inr (.inr (.inr (.inl ⟨a, ha, rfl⟩)))
    · rcases List.mem_append.mp hd with hd | hd
      · exact .inr (.inr (.inr (.inr ⟨d, hd, rfl⟩)))
      · exact .inr (.inl ⟨d, hd, rfl⟩)
  · rintro (rfl | ⟨d, hd, rfl⟩ | hq | ⟨a, ha, rfl⟩ | ⟨d, hd, rfl⟩)
    · exact .inr (.inl ⟨b, List.mem_cons_self, rfl⟩)
    · exact .inr (.inr ⟨d, List.mem_append_right _ hd, rfl⟩)
    · cases hq
    · exact .inr (.inl ⟨a, List.mem_cons_of_mem _ ha, rfl⟩)
    · exact .inr (.inr ⟨d, List.mem_append_left _ hd, rfl⟩)

/-- A chunk that a small allocation is made from: it ends its region, and
a page border at its start is that of its region. -/
structure Tail (k : Nat) (s : Sys) (c : Chunk) (a : Size) : Prop where
  room : 32 ≤ a.toNat
  fit : c.size = a ∨ a.toNat + 32 ≤ c.size.toNat
  last : ∃ r ∈ s.os.mapped,
    c.addr.toNat + c.size.toNat = r.base.toNat + r.size.toNat
  first : c.addr.toNat % 2 ^ k = 32 →
    ∃ r ∈ s.os.mapped, c.addr.toNat = r.base.toNat + 32

/-- It depends on the mapped regions only. -/
theorem Tail.congr {c : Chunk} {a : Size} (h : Tail k s c a)
    (hos : s'.os = s.os) : Tail k s' c a := by
  refine ⟨h.room, h.fit, ?_, ?_⟩
  all_goals rw [hos]
  · exact h.last
  · exact h.first

theorem Tail.le {c : Chunk} {a : Size} (h : Tail k s c a) :
    a.toNat ≤ c.size.toNat := by
  rcases h.fit with hfit | hfit
  · exact Nat.le_of_eq (congrArg BitVec.toNat hfit.symm)
  · omega

/-- The other cells end in front of it, or lie beyond its region. -/
theorem Tight.around {c : Chunk} {a : Size}
    (ht : Tight k s live free [c.span]) (hc : Tail k s c a) {z : Cell}
    (hz : z ∈ cells k live free) :
    32 ≤ z.span.2 ∧ (z.span.1 + z.span.2 ≤ c.addr.toNat
      ∨ c.addr.toNat + c.size.toNat < z.span.1) := by
  have hl := ht.layout
  obtain ⟨r, hr, hend⟩ := hc.last
  have hpiece : z.span ∈ pieces k live free [c.span] := cell_piece hz
  have hne := hl.none_at_end hpiece hr
  have hapart := hl.held_cell List.mem_cons_self hz
  refine ⟨ht.big _ hpiece, ?_⟩
  unfold Apart Chunk.span at hapart
  simp only at hapart
  omega

/-- The tags after an allocation. -/
theorem Tight.found_tagged {c : Chunk} {a : Size} {b : Alloc}
    (ht : Tight k s live free [c.span]) (hc : Tail k s c a)
    (hb : b.chunk k = (c.addr.toNat, a.toNat))
    (hfront : Front s.mem (cells k live free) c.addr.toNat false)
    (hout : OffLinks s.heap free [c.span, (c.addr.toNat - 4, 4)] s.mem m)
    (htag : m.load32 (c.addr + a - 4) = a.setWidth 32 ||| thisAllocatedBit)
    (hslot : c.addr.toNat % 2 ^ k ≠ 32 → m.load32 (c.addr - 4)
      = s.mem.load32 (c.addr - 4) ||| nextAllocatedBit) :
    Tagged m (cells k (b :: live) (free ++ c.rest a)) := by
  have hl := ht.layout
  have hcp : c.span ∈ pieces k live free [c.span] :=
    Layout.held_mem List.mem_cons_self
  obtain ⟨hf32, _⟩ := hl.piece_bounds hcp
  unfold Chunk.span at hf32
  simp only at hf32
  have hroom := hc.room
  have haround := fun z hz => ht.around hc (z := z) hz
  have hrest : ∀ d ∈ c.rest a, a.toNat < c.size.toNat
      ∧ d.span = (c.addr.toNat + a.toNat, c.size.toNat - a.toNat) :=
    fun d hd => hl.rest_span hcp hd
  have hothers : Tagged m (cells k live free) :=
    ht.tagged_off List.mem_cons_self hout
  -- the rest has nothing behind it, and the new chunk in front
  have hwith : Tagged m (cells k live (free ++ c.rest a)) := by
    intro x hx y hy hadj
    rcases mem_cells_append.mp hx with hx | ⟨d, hd, rfl⟩
    · rcases mem_cells_append.mp hy with hy | ⟨e, he, rfl⟩
      · exact hothers x hx y hy hadj
      · obtain ⟨hlt, hspan⟩ := hrest e he
        have hin := haround x hx
        rw [hspan] at hadj
        simp only at hadj
        omega
    · obtain ⟨hlt, hspan⟩ := hrest d hd
      rw [hspan] at hadj
      simp only at hadj
      rcases mem_cells_append.mp hy with hy | ⟨e, he, rfl⟩
      · have hin := haround y hy
        omega
      · rw [(hrest e he).2] at hadj
        simp only at hadj
        omega
  rw [cells_cons, hb]
  refine hwith.cons (show 0 < a.toNat by omega) ?_ ?_
  · intro x hx hx'
    simp only at hx' ⊢
    rcases mem_cells_append.mp hx with hx | ⟨d, hd, rfl⟩
    · have hne : c.addr.toNat % 2 ^ k ≠ 32 := by
        intro hmod
        obtain ⟨q, hq, hstart⟩ := hc.first hmod
        rw [hstart] at hx'
        exact hl.none_before_first (cell_piece hx) hq hx'
      have h4 : (c.addr - 4).toNat + 4 = c.addr.toNat := by
        have hlit : (4 : Addr).toNat = 4 := rfl
        rw [BitVec.toNat_sub, hlit]
        omega
      have hold := hfront x hx hx'
      rw [endWord_eq h4] at hold ⊢
      rw [hslot hne, hold]
      exact tagWord_set _ _
    · obtain ⟨hlt, hspan⟩ := hrest d hd
      rw [hspan] at hx'
      simp only at hx'
      omega
  · intro y hy hadj
    simp only at hadj ⊢
    rcases mem_cells_append.mp hy with hy | ⟨d, hd, rfl⟩
    · have hin := haround y hy
      have hle := hc.le
      omega
    · have htagAddr := (hl.front_toNat hcp hc.le).2 (by omega)
      rw [endWord_eq htagAddr, htag]
      exact tagWord_this a

/-- No free chunk touches another one after it. -/
theorem Tight.found_lonely {c : Chunk} {a : Size}
    (ht : Tight k s live free [c.span]) (hc : Tail k s c a) :
    ∀ d ∈ free ++ c.rest a, ∀ e ∈ free ++ c.rest a,
      e.addr.toNat ≠ d.addr.toNat + d.size.toNat := by
  have hl := ht.layout
  have hcp : c.span ∈ pieces k live free [c.span] :=
    Layout.held_mem List.mem_cons_self
  have haround : ∀ x ∈ free, 32 ≤ x.size.toNat
      ∧ (x.addr.toNat + x.size.toNat ≤ c.addr.toNat
        ∨ c.addr.toNat + c.size.toNat < x.addr.toNat) := fun x hx =>
    ht.around hc (z := ⟨x.span, false⟩) (mem_cells.mpr (.inr ⟨x, hx, rfl⟩))
  have hrest : ∀ d ∈ c.rest a, a.toNat < c.size.toNat
      ∧ d.addr.toNat = c.addr.toNat + a.toNat
      ∧ d.size.toNat = c.size.toNat - a.toNat := by
    intro d hd
    obtain ⟨hlt, hspan⟩ := hl.rest_span hcp hd
    exact ⟨hlt, congrArg Prod.fst hspan, congrArg Prod.snd hspan⟩
  intro d hd e he hadj
  rcases List.mem_append.mp hd with hd | hd
  · rcases List.mem_append.mp he with he | he
    · exact ht.lonely d hd e he hadj
    · have hd' := haround d hd
      have he' := hrest e he
      have hroom := hc.room
      omega
  · have hd' := hrest d hd
    rcases List.mem_append.mp he with he | he
    · have he' := haround e he
      omega
    · have he' := hrest e he
      omega

/-- An allocation from a chunk in hand. -/
theorem Tight.found_ok {c : Chunk} {n a : Size} (ha : calcAllocSize n = a)
    (ht : Tight k s live free [c.span]) (hc : Tail k s c a)
    (hload : s.mem.load64 c.addr = c.size)
    (hn : n.toNat + 11 < 2 ^ 64) (hsmall : ¬ IsLarge (pageOf k) a)
    (hfront : Front s.mem (cells k live free) c.addr.toNat false) :
    Tight k { s with mem := found s.heap s.mem c.addr a }
      (⟨c.addr, n⟩ :: live) (free ++ c.rest a) [] := by
  have hl := ht.layout
  have hcp : c.span ∈ pieces k live free [c.span] :=
    Layout.held_mem List.mem_cons_self
  have hroom := hc.room
  obtain ⟨hinv, hout, _, htag, hslot⟩ := ht.inv.found_ok ha hload hn hsmall
    (by omega) (hc.fit.imp_right fun h => by omega) (by
      right
      intro d hd h24
      have hpiece : d.span ∈ pieces k live free [c.span] :=
        Layout.free_mem hd
      have hbig := ht.big _ hpiece
      unfold Chunk.span at hbig
      simp only at hbig
      omega)
  have hbs : ¬ Alloc.Large k ⟨c.addr, n⟩ := by
    subst ha
    exact hsmall
  have hb : Alloc.chunk k ⟨c.addr, n⟩ = (c.addr.toNat, a.toNat) := by
    rw [Alloc.chunk_small k hbs, ha]
  have hrest : ∀ d ∈ c.rest a, a.toNat < c.size.toNat
      ∧ d.span = (c.addr.toNat + a.toNat, c.size.toNat - a.toNat) :=
    fun d hd => hl.rest_span hcp hd
  refine ⟨⟨hinv.layout, ?_, ?_, ?_, ht.found_tagged hc hb hfront hout htag
    hslot, ht.found_lonely hc, ht.regions⟩, hinv⟩
  · -- the chunk covers what its two parts do
    have hcover : Covers 32 (s.os.mapped.map Region.span)
        (c.span :: pieces k live free []) := ht.covers
    by_cases hlt : a < c.size
    · have hlt' : a.toNat < c.size.toNat := hlt
      have hd : (⟨c.addr + a, c.size - a⟩ : Chunk) ∈ c.rest a := by
        unfold Chunk.rest
        rw [if_pos hlt]
        exact List.mem_cons_self
      have hcut : c.span = (c.addr.toNat, a.toNat
          + (c.size.toNat - a.toNat)) := by
        unfold Chunk.span
        congr 1
        omega
      rw [hcut] at hcover
      refine hcover.split.mono fun q hq => mem_pieces_alloc.mpr ?_
      rcases List.mem_cons.mp hq with rfl | hq
      · exact .inl hb.symm
      · rcases List.mem_cons.mp hq with rfl | hq
        · exact .inr (.inl ⟨_, hd, (hrest _ hd).2.symm⟩)
        · exact .inr (.inr hq)
    · refine hcover.mono fun q hq => mem_pieces_alloc.mpr ?_
      rcases List.mem_cons.mp hq with rfl | hq
      · left
        have hge : c.size.toNat ≤ a.toNat := Nat.le_of_not_lt hlt
        have hle := hc.le
        rw [hb]
        unfold Chunk.span
        congr 1
        omega
      · exact .inr (.inr hq)
  · intro b hb'
    rcases List.mem_cons.mp hb' with rfl | hb'
    · exact hbs
    · exact ht.small b hb'
  · intro q hq
    rcases mem_pieces_alloc.mp hq with rfl | ⟨d, hd, rfl⟩ | hq
    · rw [hb]
      exact hroom
    · obtain ⟨hlt, hspan⟩ := hrest d hd
      have hfit := hc.fit.resolve_left fun heq => by
        rw [heq] at hlt
        exact Nat.lt_irrefl _ hlt
      rw [hspan]
      simp only
      omega
    · exact ht.big q (List.mem_cons_of_mem _ hq)

/-- The size of the next region is a power of two, or has run out of its
word. -/
def Doubling (h : Heap) : Prop := ∃ j : Nat, h.chunkSize = 1#32 <<< j

theorem Doubling.next {h : Heap} (hd : Doubling h) :
    Doubling { h with chunkSize := h.chunkSize * 2 } := by
  obtain ⟨j, hj⟩ := hd
  refine ⟨j + 1, ?_⟩
  simp only [hj, BitVec.shiftLeft_add]
  rw [BitVec.shiftLeft_eq_mul_twoPow _ 1]
  rfl

/-- So a region that the system gives is short enough for tags: the sizes
beyond are negative, or zero. -/
theorem Opened.size_le {r : Region} {c : Chunk} (hd : Doubling s.heap)
    (hopen : Opened k s s' live free r c) : r.size.toNat ≤ 2 ^ 30 := by
  obtain ⟨j, hj⟩ := hd
  have hpos := hopen.fresh.1
  have htop := hopen.fresh.2.2.1
  rw [hopen.size, hj] at hpos htop ⊢
  rcases chunkSize_cases j with ⟨hle, hsize⟩ | hlarge | hzero
  · rw [hsize]
    exact Nat.pow_le_pow_right (by decide) hle
  · omega
  · omega

/-- The one chunk of a new region may be taken from. -/
theorem Opened.tail {r : Region} {c : Chunk} {a : Size}
    (hopen : Opened k s s' live free r c) (hroom : 32 ≤ a.toNat)
    (hsmall : ¬ IsLarge (pageOf k) a) : Tail k s' c a := by
  have hl := hopen.inv.layout
  have hr : r ∈ s'.os.mapped := by
    rw [hopen.os]
    exact List.mem_cons_self
  have hpage := hopen.page
  have hbounds := page_bounds hl.shift
  rw [isLarge_iff hl.shift] at hsmall
  have haddr : c.addr.toNat = r.base.toNat + 32 :=
    congrArg Prod.fst hopen.span
  have hsize : c.size.toNat = r.size.toNat - 32 :=
    congrArg Prod.snd hopen.span
  exact ⟨hroom, .inr (by omega), ⟨r, hr, by omega⟩, fun _ => ⟨r, hr, haddr⟩⟩

/-- Where an allocation comes from: the chunk of the free list that the
search answers with, or a new region. -/
structure Served (k : Nat) (s s' : Sys)
    (answer : Except HeapError (Option Addr)) (live : List Alloc)
    (free free' : List Chunk) (c : Chunk) (n : Size) : Prop where
  tight : Tight k s' (⟨c.addr, n⟩ :: live) free' []
  tail : Tail k s' c (calcAllocSize n)
  source : (answer = .ok (some c.addr) ∧ ∃ l₁ l₂, free = l₁ ++ c :: l₂
        ∧ free' = l₁ ++ l₂ ++ c.rest (calcAllocSize n)
        ∧ s'.os.mapped = s.os.mapped ∧ s'.heap = s.heap)
    ∨ (answer = .ok none ∧ ∃ r, free' = free ++ c.rest (calcAllocSize n)
        ∧ s'.os.mapped = r :: s.os.mapped
        ∧ c.span = (r.base.toNat + 32, r.size.toNat - 32)
        ∧ r.size = s.heap.chunkSize.signExtend 64
        ∧ s'.heap = { s.heap with chunkSize := s.heap.chunkSize * 2 })

theorem Chunk.rest_length (c : Chunk) (a : Size) : (c.rest a).length ≤ 1 := by
  unfold rest
  split
  · exact Nat.le_refl _
  · exact Nat.zero_le _

section
variable {answer : Except HeapError (Option Addr)} {free' : List Chunk}
  {c : Chunk} {n : Size}

theorem Served.length_le (h : Served k s s' answer live free free' c n) :
    free'.length ≤ free.length + 1 := by
  have hrest := c.rest_length (calcAllocSize n)
  rcases h.source with ⟨_, l₁, l₂, rfl, rfl, _⟩ | ⟨_, r, rfl, _⟩
  · simp only [List.length_append, List.length_cons]
    omega
  · rw [List.length_append]
    exact Nat.add_le_add_left hrest _

theorem Served.doubling (h : Served k s s' answer live free free' c n)
    (hd : Doubling s.heap) : Doubling s'.heap := by
  rcases h.source with ⟨_, _, _, _, _, _, hheap⟩
    | ⟨_, _, _, _, _, _, hheap⟩
  · rw [hheap]
    exact hd
  · rw [hheap]
    exact hd.next

/-- What an allocation occupies. -/
theorem Served.chunk (h : Served k s s' answer live free free' c n) :
    Alloc.chunk k ⟨c.addr, n⟩
      = (c.addr.toNat, (calcAllocSize n).toNat) := by
  have hsmall := h.tight.small ⟨c.addr, n⟩ List.mem_cons_self
  rw [Alloc.chunk_small k hsmall]

/-- What is left of a chunk ends where the chunk did. -/
theorem Served.rest_end (h : Served k s s' answer live free free' c n)
    {d : Chunk} (hd : d ∈ c.rest (calcAllocSize n)) :
    d.addr.toNat + d.size.toNat = c.addr.toNat + c.size.toNat := by
  have hpiece : (c.addr.toNat, (calcAllocSize n).toNat)
      ∈ pieces k (⟨c.addr, n⟩ :: live) free' [] := by
    rw [← h.chunk]
    exact Layout.chunk_mem List.mem_cons_self
  have haddr := (h.tight.layout.front_toNat
    (c := ⟨c.addr, calcAllocSize n⟩) hpiece (Nat.le_refl _)).1
  obtain ⟨hlt, rfl⟩ := Chunk.mem_rest hd
  have hle := h.tail.le
  simp only at haddr ⊢
  rw [haddr, BitVec.toNat_sub_of_le (BitVec.le_of_lt hlt)]
  omega

/-- `npr_heap_alloc` of a small allocation, where it takes from the end
of a region. -/
theorem Tight.heapAlloc_ok {fuel : Nat} {place : Placement}
    (ht : Tight k s live free []) (hd : Doubling s.heap)
    (hn : n.toNat + 11 < 2 ^ 64) (hfuel : free.length < fuel)
    (hsmall : ¬ IsLarge (pageOf k) (calcAllocSize n))
    (hroom : 32 ≤ (calcAllocSize n).toNat)
    (hanswer : firstFit s.heap s.mem (calcAllocSize n) fuel
      (DList.next freeLinks s.mem s.heap.freeHead) = answer)
    (hfound : ∀ c ∈ free, answer = .ok (some c.addr) →
      Tail k s c (calcAllocSize n)) :
    Yields (· = .mmapFailed) (heapAlloc place fuel s n) fun x =>
      ∃ free' c, x.2 = c.addr
        ∧ Served k s x.1 answer live free free' c n := by
  have hl := ht.layout
  unfold heapAlloc
  rw [hl.pageSize]
  simp only [if_neg hsmall, hanswer]
  have hsearch := ht.inv.firstFit_ok hfuel (calcAllocSize n)
  rw [hanswer] at hsearch
  rcases hsearch with ⟨rfl, _⟩ | ⟨l₁, c, l₂, rfl, rfl, _⟩
  · refine (ht.inv.newPage_ok place).bind ?_
    rintro ⟨s', f⟩ ⟨r, c, rfl, hopen⟩
    have hmod : r.size.toNat % 2 ^ k = 0 := by
      rw [hopen.size]
      exact signExtend_mod hl.shift hl.chunkSize
    obtain ⟨ht', hfront⟩ := ht.opened hopen hmod (hopen.size_le hd)
    have htail := hopen.tail hroom hsmall
    have hok := ht'.found_ok (a := calcAllocSize n) rfl htail hopen.load hn
      hsmall hfront
    exact Yields.ok ⟨_, c, rfl, hok, htail.congr rfl, .inr ⟨rfl, r, rfl,
      congrArg Os.mapped hopen.os, hopen.span, hopen.size, hopen.heap⟩⟩
  · have htail := hfound c (by simp) rfl
    obtain ⟨ht', hload, hfront⟩ := ht.take
    have hok := ht'.found_ok (a := calcAllocSize n) rfl (htail.congr rfl)
      hload hn hsmall hfront
    exact Yields.ok ⟨_, c, rfl, hok, htail.congr rfl, .inl ⟨rfl, l₁, l₂, rfl,
      rfl, rfl, rfl⟩⟩

end

end

end UdeBench.Npr.FirstFit
