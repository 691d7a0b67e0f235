/-
`npr_heap_free` where the tags are right.

A chunk given back comes into hand with both its borders tagged as an
allocated one's (`Tight.release`). The part about the chunk behind makes
of it a free one with an allocated one behind, or none (`Returned`); the
part about the chunk in front closes the gap (`Snug.close`). Between
the two the tag in front still says that an allocated chunk follows.
-/
import UdeBench.Npr.Proofs.Tight

namespace UdeBench.Npr.FirstFit

open Spans ByteMem

section
variable {k : Nat} {h : Heap} {os : Os} {s s' : Sys} {live : List Alloc}
  {free : List Chunk} {held : List Span} {m m' : ByteMem} {q : Span}

-- ============================================================ neighbours

/-- A piece is in hand, or a cell. -/
theorem piece_cell {p : Span} (hp : p ∈ pieces k live free held) :
    p ∈ held ∨ ∃ z ∈ cells k live free, z.span = p := by
  rcases mem_pieces.mp hp with hp | ⟨a, ha, rfl⟩ | ⟨c, hc, rfl⟩
  · exact .inl hp
  · exact .inr ⟨_, mem_cells.mpr (.inl ⟨a, ha, rfl⟩), rfl⟩
  · exact .inr ⟨_, mem_cells.mpr (.inr ⟨c, hc, rfl⟩), rfl⟩

/-- Behind a chunk in hand there is a cell, or its region ends. -/
theorem Snug.behind (ht : Snug k h os m live free [q]) :
    (∃ r ∈ os.mapped, q.1 + q.2 = r.base.toNat + r.size.toNat)
      ∨ ∃ z ∈ cells k live free, z.span.1 = q.1 + q.2 := by
  have hq : q ∈ pieces k live free [q] := Layout.held_mem List.mem_cons_self
  obtain ⟨r, hr, hin⟩ := ht.layout.region hq
  obtain ⟨_, _, hpos, _⟩ := ht.layout.piece_bounds hq
  rcases ht.layout.tiling.next ht.covers hq
    (List.mem_map_of_mem (f := Region.span) hr) hin with hend | ⟨p, hp, hadj⟩
  · exact .inl ⟨r, hr, hend⟩
  · right
    rcases piece_cell hp with hp | ⟨z, hz, rfl⟩
    · rw [List.mem_singleton.mp hp] at hadj
      omega
    · exact ⟨z, hz, hadj⟩

/-- In front of it there is a cell, or the header of its region. -/
theorem Snug.inFront (ht : Snug k h os m live free [q]) :
    (∃ r ∈ os.mapped, q.1 = r.base.toNat + 32)
      ∨ ∃ z ∈ cells k live free, z.span.1 + z.span.2 = q.1 := by
  have hq : q ∈ pieces k live free [q] := Layout.held_mem List.mem_cons_self
  obtain ⟨r, hr, hin⟩ := ht.layout.region hq
  obtain ⟨_, _, hpos, _⟩ := ht.layout.piece_bounds hq
  rcases ht.layout.tiling.prev ht.covers hq
    (List.mem_map_of_mem (f := Region.span) hr) hin with hfirst | ⟨p, hp, hadj⟩
  · exact .inl ⟨r, hr, hfirst⟩
  · right
    rcases piece_cell hp with hp | ⟨z, hz, rfl⟩
    · rw [List.mem_singleton.mp hp] at hadj
      omega
    · exact ⟨z, hz, hadj⟩

/-- The borders of a region are borders of pages. -/
theorem Snug.page_borders (ht : Snug k h os m live free held) {r : Region}
    (hr : r ∈ os.mapped) :
    (r.base.toNat + r.size.toNat) % 2 ^ k = 0
      ∧ (r.base.toNat + 32) % 2 ^ k = 32 := by
  have hpage := page_bounds ht.layout.shift
  have hbase := (ht.layout.regions r hr).1
  have hsize := (ht.regions r hr).1
  constructor
  · rw [Nat.add_mod, hbase, hsize, Nat.zero_add, Nat.zero_mod]
  · rw [Nat.add_mod, hbase, Nat.zero_add, Nat.mod_mod]
    exact Nat.mod_eq_of_lt (by omega)

/-- Chunks are short enough for their tags. -/
theorem Snug.size_lt (ht : Snug k h os m live free held) {p : Span}
    (hp : p ∈ pieces k live free held) : p.2 < 2 ^ 30 := by
  obtain ⟨r, hr, hlo, hhi⟩ := ht.layout.region hp
  have hsize := (ht.regions r hr).2
  unfold Region.span at hlo hhi
  simp only at hlo hhi
  omega

/-- A tag that was read, with the two bits that the code looks at. -/
theorem tag_bits {v : Word} {n : Nat} {this next : Bool} (hn : n < 2 ^ 30)
    (hv : v = tagWord n this next) :
    (v &&& thisAllocatedBit = 0 ↔ this = false)
      ∧ (v &&& nextAllocatedBit = 0 ↔ next = false)
      ∧ (v &&& sizeMask).toNat = n := by
  obtain ⟨hsize, hthis, hnext⟩ := tagWord_read hn this next
  rw [hv]
  refine ⟨?_, ?_, hsize⟩
  · rw [← Bool.not_eq_true, ← hthis]
    exact not_not.symm
  · rw [← Bool.not_eq_true, ← hnext]
    exact not_not.symm

-- =============================================================== release

/-- The cells with an allocation less. -/
theorem mem_cells_erase {b : Alloc} (hb : b ∈ live) {z : Cell} :
    z ∈ cells k live free
      ↔ z ∈ (⟨b.chunk k, true⟩ : Cell) :: cells k (live.erase b) free := by
  rw [← cells_cons, mem_cells, mem_cells]
  have hperm := List.perm_cons_erase hb
  simp only [hperm.mem_iff]

/-- An allocation given back comes into hand. -/
theorem Tight.release {b : Alloc} (ht : Tight k s live free [])
    (hb : b ∈ live) :
    Tight k s (live.erase b) free [b.chunk k]
      ∧ Front s.mem (cells k (live.erase b) free) (b.chunk k).1 true
      ∧ Back s.mem (cells k (live.erase b) free) (b.chunk k) true := by
  have hpieces : ∀ p, p ∈ pieces k live free []
      ↔ p ∈ pieces k (live.erase b) free [b.chunk k] := fun p =>
    (pieces_release hb).mem_iff
  have hinv := ht.inv.release hb
  have htagged : Tagged s.mem ((⟨b.chunk k, true⟩ : Cell)
      :: cells k (live.erase b) free) :=
    ht.tagged.mono fun z hz => (mem_cells_erase hb).mpr hz
  obtain ⟨htagged, hfront, hback⟩ := htagged.uncons
  exact ⟨⟨⟨hinv.layout, ht.covers.mono fun p hp => (hpieces p).mp hp,
    fun a ha => ht.small a (List.mem_of_mem_erase ha),
    fun p hp => ht.big p ((hpieces p).mpr hp), htagged, ht.lonely,
    ht.regions⟩, hinv⟩, hfront, hback⟩

/-- A chunk in hand that is free already to those behind it, and still
allocated to the one in front. -/
structure Returned (k : Nat) (h : Heap) (os : Os) (m : ByteMem)
    (live : List Alloc) (free : List Chunk) (q : Span) : Prop
    extends Snug k h os m live free [q] where
  front : Front m (cells k live free) q.1 true
  back : Back m (cells k live free) q false
  alone : ∀ y ∈ cells k live free, y.span.1 = q.1 + q.2 → y.live = true

/-- A free cell is a chunk of the free list. -/
theorem free_of_cell {z : Cell} (hz : z ∈ cells k live free)
    (hfree : z.live = false) : ∃ c ∈ free, z.span = c.span := by
  rcases mem_cells.mp hz with ⟨a, _, rfl⟩ | ⟨c, hc, rfl⟩
  · cases hfree
  · exact ⟨c, hc, rfl⟩

/-- The end of a chunk in hand, as an address. -/
theorem Layout.end_toNat (hl : Layout k h os live free held) {p : Addr}
    {sz : Size} (hq : (p.toNat, sz.toNat) ∈ held) (h4 : 4 ≤ sz.toNat) :
    (p + sz - 4).toNat + 4 = p.toNat + sz.toNat :=
  (hl.front_toNat (c := ⟨p, sz⟩) (Layout.held_mem hq) (Nat.le_refl _)).2 h4

-- ========================================================= what is behind

/-- What the tag at the end of a chunk given back is good for: the bit
for the next chunk is right, and so is the free list. -/
theorem Tight.next_ok {p : Addr} {a : Size}
    (ht : Tight k s live free [(p.toNat, a.toNat)])
    (hback : Back s.mem (cells k live free) (p.toNat, a.toNat) true) :
    (p + a).toNat % 2 ^ k = 0
      ∨ s.mem.load32 (p + a - 4) &&& nextAllocatedBit ≠ 0
      ∨ ∃ c ∈ free, c.addr = p + a := by
  have hl := ht.layout
  have hheld : (p.toNat, a.toNat) ∈ [(p.toNat, a.toNat)] :=
    List.mem_cons_self
  have hlt := ht.size_lt (Layout.held_mem hheld)
  have h32 := ht.big _ (Layout.held_mem hheld)
  have hend := hl.end_toNat hheld (by simp only at h32; omega)
  have hsum : (p + a).toNat = p.toNat + a.toNat :=
    (hl.front_toNat (c := ⟨p, a⟩) (Layout.held_mem hheld) (Nat.le_refl _)).1
  rcases ht.behind with ⟨r, hr, hlast⟩ | ⟨z, hz, hadj⟩
  · left
    rw [hsum, hlast]
    exact (ht.page_borders hr).1
  · right
    have hword := hback z hz hadj
    rw [endWord_eq hend] at hword
    obtain ⟨_, hbit, _⟩ := tag_bits hlt hword
    cases hzlive : z.live with
    | true =>
        left
        intro hzero
        rw [hbit.mp hzero] at hzlive
        cases hzlive
    | false =>
        right
        obtain ⟨c, hc, hspan⟩ := free_of_cell hz hzlive
        refine ⟨c, hc, BitVec.eq_of_toNat_eq ?_⟩
        rw [hsum, ← hadj, hspan]
        rfl

/-- The chunk in hand after the part about the chunk behind, before the
writes: nothing free is behind it. -/
theorem Tight.extended {p : Addr} {a sz : Size} {free' : List Chunk}
    (ht : Tight k s live free [(p.toNat, a.toNat)])
    (hfront : Front s.mem (cells k live free) p.toNat true)
    (hback : Back s.mem (cells k live free) (p.toNat, a.toNat) true)
    (hlast : (p + a).toNat % 2 ^ k = 0 → ∃ r ∈ s.os.mapped,
      p.toNat + a.toNat = r.base.toNat + r.size.toNat)
    (hbehind : Behind k s live free free' p a sz m) :
    Snug k s.heap s.os s.mem live free' [(p.toNat, sz.toNat)]
      ∧ Front s.mem (cells k live free') p.toNat true
      ∧ ∀ y ∈ cells k live free', y.span.1 = p.toNat + sz.toNat →
        y.live = true ∧ (p + a).toNat % 2 ^ k ≠ 0 := by
  have hl := ht.layout
  have hheld : (p.toNat, a.toNat) ∈ [(p.toNat, a.toNat)] :=
    List.mem_cons_self
  have hlt := ht.size_lt (Layout.held_mem hheld)
  have h32 := ht.big _ (Layout.held_mem hheld)
  simp only at hlt h32
  have hend := hl.end_toNat hheld (by omega)
  have hl' := hbehind.inv.layout
  rcases hbehind.extent with
    ⟨hstop, rfl, rfl⟩ | ⟨⟨hne, _⟩, l₁, c, l₂, rfl, rfl, hca, rfl⟩
  · refine ⟨ht.toSnug, hfront, fun y hy hadj => ?_⟩
    have hne : (p + sz).toNat % 2 ^ k ≠ 0 := by
      intro hzero
      obtain ⟨r, hr, hregion⟩ := hlast hzero
      rw [hregion] at hadj
      exact hl.none_at_end (cell_piece hy) hr hadj
    refine ⟨?_, hne⟩
    have hword := hback y hy hadj
    rw [endWord_eq hend] at hword
    obtain ⟨_, hbit, _⟩ := tag_bits hlt hword
    cases hylive : y.live with
    | true => rfl
    | false => exact absurd (hbit.mpr hylive) (hstop.resolve_left hne)
  · -- the chunk behind was free, so the one behind that is not
    have hc : c ∈ l₁ ++ c :: l₂ := by simp
    have hsub : ∀ d ∈ l₁ ++ l₂, d ∈ l₁ ++ c :: l₂ := fun d hd =>
      mem_insert.mpr (.inr hd)
    have hcells : ∀ z ∈ cells k live (l₁ ++ l₂),
        z ∈ cells k live (l₁ ++ c :: l₂) := fun z hz =>
      mem_cells_insert.mpr (List.mem_cons_of_mem _ hz)
    have hsum : (p + a).toNat = p.toNat + a.toNat :=
      (hl.front_toNat (c := ⟨p, a⟩) (Layout.held_mem hheld)
        (Nat.le_refl _)).1
    have hcaddr : c.addr.toNat = p.toNat + a.toNat := by rw [hca, hsum]
    have hcsize : (a + c.size).toNat = a.toNat + c.size.toNat := by
      obtain ⟨_, hhi, _⟩ := hl.piece_bounds (Layout.free_mem hc)
      unfold Chunk.span at hhi
      simp only at hhi
      rw [BitVec.toNat_add]
      omega
    have hspan : c.span = (p.toNat + a.toNat, c.size.toNat) := by
      unfold Chunk.span
      rw [hcaddr]
    refine ⟨⟨hl', ?_, ht.small, ?_, ht.tagged.mono hcells, fun d hd e he =>
      ht.lonely d (hsub d hd) e (hsub e he), ht.regions⟩, fun x hx =>
      hfront x (hcells x hx), fun y hy hadj => ⟨?_, hne⟩⟩
    · have hcover : Covers 32 (s.os.mapped.map Region.span)
          ((p.toNat, a.toNat) :: (p.toNat + a.toNat, c.size.toNat)
            :: pieces k live (l₁ ++ l₂) []) := by
        rw [← hspan]
        refine ht.covers.mono fun x hx => ?_
        have hx := (pieces_take.mem_iff).mp hx
        rcases mem_pieces.mp hx with hx | hx
        · rcases List.mem_cons.mp hx with rfl | hx
          · exact List.mem_cons_of_mem _ List.mem_cons_self
          · rw [List.mem_singleton.mp hx]
            exact List.mem_cons_self
        · exact List.mem_cons_of_mem _ (List.mem_cons_of_mem _
            (mem_pieces.mpr (.inr hx)))
      have hjoined := hcover.join
      rw [← hcsize] at hjoined
      exact hjoined
    · intro x hx
      rcases mem_pieces.mp hx with hx | hx
      · rw [List.mem_singleton.mp hx]
        simp only
        omega
      · apply ht.big x
        rcases hx with hx | ⟨d, hd, rfl⟩
        · exact mem_pieces.mpr (.inr (.inl hx))
        · exact Layout.free_mem (hsub d hd)
    · cases hylive : y.live with
      | true => rfl
      | false =>
          obtain ⟨d, hd, hdspan⟩ := free_of_cell hy hylive
          have hlonely := ht.lonely c hc d (hsub d hd)
          rw [hdspan] at hadj
          unfold Chunk.span at hadj
          simp only at hadj
          omega

/-- The chunk in hand after that part. -/
theorem Tight.returned {p : Addr} {a sz : Size} {free' : List Chunk}
    (ht : Tight k s live free [(p.toNat, a.toNat)])
    (hfront : Front s.mem (cells k live free) p.toNat true)
    (hback : Back s.mem (cells k live free) (p.toNat, a.toNat) true)
    (hlast : (p + a).toNat % 2 ^ k = 0 → ∃ r ∈ s.os.mapped,
      p.toNat + a.toNat = r.base.toNat + r.size.toNat)
    (hbehind : Behind k s live free free' p a sz m) :
    Returned k s.heap s.os m live free' (p.toNat, sz.toNat) := by
  obtain ⟨hs, hfront', halone⟩ := ht.extended hfront hback hlast hbehind
  have hheld : (p.toNat, sz.toNat) ∈ [(p.toNat, sz.toNat)] :=
    List.mem_cons_self
  have h32 := hs.big _ (Layout.held_mem hheld)
  simp only at h32
  have hend := hs.layout.end_toNat hheld (by omega)
  refine ⟨⟨hs.layout, hs.covers, hs.small, hs.big,
    hs.tagged_off hheld (hbehind.out.slot _), hs.lonely, hs.regions⟩,
    hs.front_off hheld hfront' hbehind.out, ?_,
    fun y hy hadj => (halone y hy hadj).1⟩
  intro y hy hadj
  obtain ⟨hylive, hne⟩ := halone y hy hadj
  simp only
  rw [endWord_eq hend, hbehind.tag hne, hylive]
  exact tagWord_next sz

-- ====================================================== what is in front

/-- The gap closed: the chunk in hand is free, with an allocated one in
front of it, or none. -/
theorem Snug.close (l₁ l₂ : List Chunk) (c : Chunk)
    (hr : Snug k h os m live (l₁ ++ l₂) [c.span])
    (halone : ∀ y ∈ cells k live (l₁ ++ l₂),
      y.span.1 = c.span.1 + c.span.2 → y.live = true)
    (hinv : Inv k s' live (l₁ ++ c :: l₂) [])
    (hh : s'.heap = h) (ho : s'.os = os)
    (htagged : Tagged s'.mem (cells k live (l₁ ++ l₂)))
    (hfront : Front s'.mem (cells k live (l₁ ++ l₂)) c.addr.toNat false)
    (hback : Back s'.mem (cells k live (l₁ ++ l₂)) c.span false)
    (hlive : ∀ x ∈ cells k live (l₁ ++ l₂),
      x.span.1 + x.span.2 = c.addr.toNat → x.live = true) :
    Tight k s' live (l₁ ++ c :: l₂) [] := by
  subst hh ho
  have hpos := hr.big c.span (Layout.held_mem List.mem_cons_self)
  have hpieces : ∀ p, p ∈ pieces k live (l₁ ++ c :: l₂) []
      ↔ p ∈ pieces k live (l₁ ++ l₂) [c.span] := fun p =>
    pieces_take.mem_iff
  have hfreeCell : ∀ d ∈ l₁ ++ l₂,
      (⟨d.span, false⟩ : Cell) ∈ cells k live (l₁ ++ l₂) := fun d hd =>
    mem_cells.mpr (.inr ⟨d, hd, rfl⟩)
  refine ⟨⟨hinv.layout, hr.covers.mono fun p hp => (hpieces p).mpr hp,
    hr.small, fun p hp => hr.big p ((hpieces p).mp hp), ?_, ?_, hr.regions⟩,
    hinv⟩
  · refine (htagged.cons (z := ⟨c.span, false⟩) ?_ hfront hback).mono
      fun z hz => mem_cells_insert.mp hz
    simp only
    omega
  · -- a free neighbour would be a free cell
    intro d hd e he hadj
    rcases mem_insert.mp hd with rfl | hd'
    · rcases mem_insert.mp he with rfl | he'
      · unfold Chunk.span at hpos
        simp only at hpos
        omega
      · exact absurd (halone _ (hfreeCell e he') hadj) Bool.false_ne_true
    · rcases mem_insert.mp he with rfl | he'
      · exact absurd (hlive _ (hfreeCell d hd') hadj.symm) Bool.false_ne_true
      · exact hr.lonely d hd' e he' hadj

/-- The chunk in hand enters the list, behind an allocated one or at the
start of its region. -/
theorem Returned.enter {p : Addr} {sz : Size} {free' : List Chunk}
    (hr : Returned k s.heap s.os s.mem live free (p.toNat, sz.toNat))
    (hfree : free' = free ++ [⟨p, sz⟩])
    (hinv : Inv k { s with mem := m } live free' [])
    (hout : OffLinks s.heap free [freeSpan p, (p.toNat - 4, 4)] s.mem m)
    (hfront : ∀ x ∈ cells k live free, x.span.1 + x.span.2 = p.toNat →
      x.live = true ∧ m.load32 (p - 4)
        = s.mem.load32 (p - 4) &&& ~~~nextAllocatedBit) :
    Tight k { s with mem := m } live free' [] := by
  subst hfree
  have hl := hr.layout
  have hheld : (p.toNat, sz.toNat) ∈ [(p.toNat, sz.toNat)] :=
    List.mem_cons_self
  have h32 := hr.big _ (Layout.held_mem hheld)
  obtain ⟨hlo, hhi, _⟩ := hl.piece_bounds (Layout.held_mem hheld)
  simp only at h32 hlo hhi
  have hslot : OffLinks s.heap free [(p.toNat, sz.toNat), (p.toNat - 4, 4)]
      s.mem m := by
    refine hout.mono (fun c hc => .inl hc) fun x hx => ?_
    rcases List.mem_cons.mp hx with rfl | hx
    · rw [freeSpan_eq]
      refine ⟨_, List.mem_cons_self, ?_, ?_⟩
      all_goals simp only; omega
    · exact ⟨_, List.mem_cons_of_mem _ List.mem_cons_self,
        by rw [List.mem_singleton.mp hx], by rw [List.mem_singleton.mp hx]⟩
  have hfree : free ++ [] = free := List.append_nil free
  have hr' : Snug k s.heap s.os s.mem live (free ++ [])
      [Chunk.span ⟨p, sz⟩] := by
    rw [hfree]
    exact hr.toSnug
  refine Snug.close free [] ⟨p, sz⟩ hr' ?_ hinv rfl rfl ?_ ?_ ?_ ?_
  all_goals rw [hfree]
  · exact hr.alone
  · exact hr.tagged_off hheld hslot
  · intro x hx hx'
    obtain ⟨_, hclear⟩ := hfront x hx hx'
    have h4 : (p - 4).toNat + 4 = p.toNat := by
      have hlit : (4 : Addr).toNat = 4 := rfl
      rw [BitVec.toNat_sub, hlit]
      omega
    have hold := hr.front x hx hx'
    simp only at hold
    rw [endWord_eq h4] at hold ⊢
    rw [hclear, hold]
    exact tagWord_clear (hr.size_lt (cell_piece hx)) _
  · -- the tag at its end is behind its links
    intro y hy hadj
    have hword : endWord m (p.toNat + sz.toNat)
        = endWord s.mem (p.toNat + sz.toNat) := by
      apply endWord_agree hhi
      obtain ⟨hhead, htail, hlinks⟩ := hl.off_held hheld
        (t := (p.toNat + sz.toNat - 4, 4)) (by simp only; omega)
        (by simp only; omega)
      refine hout _ hhead htail hlinks fun x hx => ?_
      rcases List.mem_cons.mp hx with rfl | hx
      · rw [freeSpan_eq]
        unfold Apart
        simp only
        omega
      · rw [List.mem_singleton.mp hx]
        unfold Apart
        simp only
        omega
    exact hword.trans (hr.back y hy hadj)
  · exact fun x hx hx' => (hfront x hx hx').1

/-- The free chunk in front grows over the one in hand. -/
theorem Returned.grow {l₁ l₂ : List Chunk} {c : Chunk} {p : Addr} {sz : Size}
    (hr : Returned k s.heap s.os s.mem live (l₁ ++ c :: l₂)
      (p.toNat, sz.toNat))
    (hp : c.addr.toNat + c.size.toNat = p.toNat)
    (hinv : Inv k { s with mem := m } live (l₁ ++ ⟨c.addr, sz + c.size⟩ :: l₂)
      [])
    (hw : Within [span64 c.addr, (p.toNat, sz.toNat)] s.mem m)
    (htag : m.load32 (p + sz - 4)
      = (sz + c.size).setWidth 32 ||| nextAllocatedBit) :
    Tight k { s with mem := m } live (l₁ ++ ⟨c.addr, sz + c.size⟩ :: l₂) []
    := by
  have hl := hr.layout
  have hheld : (p.toNat, sz.toNat) ∈ [(p.toNat, sz.toNat)] :=
    List.mem_cons_self
  have hc : c ∈ l₁ ++ c :: l₂ := by simp
  have h32 := hr.big _ (Layout.held_mem hheld)
  obtain ⟨_, hhi, _⟩ := hl.piece_bounds (Layout.held_mem hheld)
  simp only at h32 hhi
  have hend := hl.end_toNat hheld (by omega)
  have hsum : (sz + c.size).toNat = c.size.toNat + sz.toNat := by
    rw [BitVec.toNat_add]
    omega
  have hspan : Chunk.span ⟨c.addr, sz + c.size⟩
      = (c.addr.toNat, c.size.toNat + sz.toNat) := by
    unfold Chunk.span
    rw [hsum]
  have hsub : ∀ d ∈ l₁ ++ l₂, d ∈ l₁ ++ c :: l₂ := fun d hd =>
    mem_insert.mpr (.inr hd)
  have hcells : ∀ z ∈ cells k live (l₁ ++ l₂),
      z ∈ cells k live (l₁ ++ c :: l₂) := fun z hz =>
    mem_cells_insert.mpr (List.mem_cons_of_mem _ hz)
  -- the two chunks as one in hand
  have htwo : (pieces k live (l₁ ++ c :: l₂) [(p.toNat, sz.toNat)]).Perm
      (pieces k live (l₁ ++ l₂) [c.span, (p.toNat, sz.toNat)]) := pieces_take
  have hpair : pieces k live (l₁ ++ l₂) [c.span, (p.toNat, sz.toNat)]
      = (c.addr.toNat, c.size.toNat)
        :: (c.addr.toNat + c.size.toNat, sz.toNat)
        :: pieces k live (l₁ ++ l₂) [] := by
    rw [hp]
    rfl
  have hs : Snug k s.heap s.os s.mem live (l₁ ++ l₂)
      [Chunk.span ⟨c.addr, sz + c.size⟩] := by
    rw [hspan]
    refine ⟨?_, ?_, hr.small, ?_, hr.tagged.mono hcells, fun d hd e he =>
      hr.lonely d (hsub d hd) e (hsub e he), hr.regions⟩
    · have hl' := hl.perm htwo (fun d hd => hl.freeSize d (hsub d hd))
        hl.allocs
      have htiling := hl'.tiling
      rw [hpair] at htiling
      exact { hl' with tiling := htiling.join (by decide) }
    · have hcover := hr.covers.mono fun x hx => htwo.mem_iff.mp hx
      rw [hpair] at hcover
      exact hcover.join
    · intro x hx
      rcases mem_pieces.mp hx with hx | hx
      · rw [List.mem_singleton.mp hx]
        simp only
        omega
      · apply hr.big x
        rcases hx with hx | ⟨d, hd, rfl⟩
        · exact mem_pieces.mpr (.inr (.inl hx))
        · exact Layout.free_mem (hsub d hd)
  have hout : OffLinks s.heap (l₁ ++ l₂)
      [Chunk.span ⟨c.addr, sz + c.size⟩] s.mem m := by
    intro t _ _ _ hq
    have ht := hq _ List.mem_cons_self
    refine hw t fun x hx => ?_
    have hc24 := hl.freeSize c hc
    rw [hspan] at ht
    rcases List.mem_cons.mp hx with rfl | hx
    · unfold Apart span64 at *
      simp only at *
      omega
    · rw [List.mem_singleton.mp hx]
      unfold Apart at *
      simp only at *
      omega
  have hfront : Front s.mem (cells k live (l₁ ++ l₂)) c.addr.toNat false := by
    have htagged : Tagged s.mem
        ((⟨c.span, false⟩ : Cell) :: cells k live (l₁ ++ l₂)) :=
      hr.tagged.mono fun z hz => mem_cells_insert.mpr hz
    exact htagged.uncons.2.1
  have halone : ∀ y ∈ cells k live (l₁ ++ l₂),
      y.span.1 = (Chunk.span ⟨c.addr, sz + c.size⟩).1
        + (Chunk.span ⟨c.addr, sz + c.size⟩).2 → y.live = true := by
    intro y hy hadj
    rw [hspan] at hadj
    simp only at hadj
    exact hr.alone y (hcells y hy) (by simp only; omega)
  refine Snug.close l₁ l₂ ⟨c.addr, sz + c.size⟩ hs halone hinv rfl rfl
    (hs.tagged_off List.mem_cons_self (hout.slot _))
    (hs.front_off List.mem_cons_self hfront hout) ?_ ?_
  · intro y hy hadj
    have hylive := halone y hy hadj
    have hword := tagWord_next (sz + c.size)
    rw [hspan]
    simp only
    rw [show c.addr.toNat + (c.size.toNat + sz.toNat)
      = p.toNat + sz.toNat by omega, endWord_eq hend, htag, hylive, hword,
      hsum]
  · intro x hx hx'
    cases hxlive : x.live with
    | true => rfl
    | false =>
        obtain ⟨d, hd, hdspan⟩ := free_of_cell hx hxlive
        have hlonely := hr.lonely d (hsub d hd) c hc
        rw [hdspan] at hx'
        exact absurd hx'.symm hlonely

-- ================================================================= free

/-- Page borders at the ends of a chunk are borders of its region. -/
structure Borders (k : Nat) (os : Os) (q : Span) : Prop where
  last : (q.1 + q.2) % 2 ^ k = 0 →
    ∃ r ∈ os.mapped, q.1 + q.2 = r.base.toNat + r.size.toNat
  first : q.1 % 2 ^ k = 32 → ∃ r ∈ os.mapped, q.1 = r.base.toNat + 32

/-- `npr_heap_free` of a small allocation that page borders inside of its
region do not touch. -/
theorem Tight.heapFree_ok {b : Alloc} (ht : Tight k s live free [])
    (hb : b ∈ live) (hborders : Borders k s.os (b.chunk k)) :
    ∃ s' free', heapFree s b.p b.n = .ok s'
      ∧ Tight k s' (live.erase b) free' [] ∧ s'.os = s.os
      ∧ s'.heap = s.heap ∧ free'.length ≤ free.length + 1 := by
  have hsmall := ht.small b hb
  obtain ⟨hrel, hfront, hback⟩ := ht.release hb
  have hsum := (ht.layout.behind_toNat hb hsmall).1
  obtain ⟨hborder, hfirst⟩ := hborders
  rw [Alloc.chunk_small k hsmall] at hrel hfront hback hborder hfirst
  simp only at hborder hfirst
  have hlast : (b.p + calcAllocSize b.n).toNat % 2 ^ k = 0 →
      ∃ r ∈ s.os.mapped, b.p.toNat + (calcAllocSize b.n).toNat
        = r.base.toNat + r.size.toNat := by
    rw [hsum]
    exact hborder
  obtain ⟨m, free', sz, hm, hbehind⟩ :=
    ht.inv.freeNext_ok (n := b.n) rfl hb hsmall (hrel.next_ok hback)
  have hret := hrel.returned hfront hback hlast hbehind
  have hlen := (hbehind.size ht.layout hb hsmall).2.1
  have hheld : (b.p.toNat, sz.toNat) ∈ [(b.p.toNat, sz.toNat)] :=
    List.mem_cons_self
  have h32 := hret.big _ (Layout.held_mem hheld)
  simp only at h32
  unfold heapFree
  rw [ht.layout.pageSize]
  have hsmall' : ¬ IsLarge (pageOf k) (calcAllocSize b.n) := hsmall
  simp only [if_neg hsmall', hm]
  by_cases hpage : b.p.toNat % 2 ^ k = 32
  · -- the first of its region: nothing is in front of it
    obtain ⟨r, hr, hstart⟩ := hfirst hpage
    obtain ⟨hinv, hout⟩ :=
      hbehind.inv.freePrev_first hbehind.load (by omega) hpage
    refine ⟨_, _, rfl, Returned.enter (s := { s with mem := m }) hret rfl
      hinv (hout.slot _) fun x hx hx' => ?_, rfl, rfl, ?_⟩
    · rw [hstart] at hx'
      exact absurd hx' (hbehind.inv.layout.none_before_first
        (cell_piece hx) hr)
    · rw [List.length_append]
      exact Nat.add_le_add_right hlen 1
  · have hl := hret.layout
    rcases hret.inFront with ⟨r, hr, hstart⟩ | ⟨z, hz, hadj⟩
    · simp only at hstart
      rw [hstart] at hpage
      exact absurd (hret.page_borders hr).2 hpage
    · -- the tag in front tells whether that cell is free
      simp only at hadj
      have h4 : (b.p - 4).toNat + 4 = b.p.toNat := by
        have hlo := (hl.piece_bounds (Layout.held_mem hheld)).1
        have hlit : (4 : Addr).toNat = 4 := rfl
        simp only at hlo
        rw [BitVec.toNat_sub, hlit]
        omega
      have htags : ∀ x ∈ cells k (live.erase b) free',
          x.span.1 + x.span.2 = b.p.toNat →
          (m.load32 (b.p - 4) &&& thisAllocatedBit = 0 ↔ x.live = false)
            ∧ (m.load32 (b.p - 4) &&& sizeMask).toNat = x.span.2 := by
        intro x hx hx'
        have hword := hret.front x hx hx'
        simp only at hword
        rw [endWord_eq h4] at hword
        obtain ⟨hthis, _, hsize⟩ := tag_bits (hret.size_lt (cell_piece hx)) hword
        exact ⟨hthis, hsize⟩
      obtain ⟨hthis, hsize⟩ := htags z hz hadj
      cases hzlive : z.live with
      | true =>
          have hset : m.load32 (b.p - 4) &&& thisAllocatedBit ≠ 0 := by
            intro hzero
            rw [hthis.mp hzero] at hzlive
            cases hzlive
          obtain ⟨hinv, _, hout, hclear⟩ := hbehind.inv.freePrev_enter
            hbehind.load (by omega) hpage hset (by
              intro c hc h24
              have hpiece : c.span ∈ pieces k (live.erase b) free'
                  [(b.p.toNat, sz.toNat)] := Layout.free_mem hc
              have hbig := hret.big _ hpiece
              unfold Chunk.span at hbig
              simp only at hbig
              omega)
          refine ⟨_, _, rfl, Returned.enter (s := { s with mem := m }) hret rfl
            hinv hout fun x hx hx' => ⟨?_, hclear⟩, rfl, rfl, ?_⟩
          · rw [← Bool.not_eq_false, ← (htags x hx hx').1]
            exact hset
          · rw [List.length_append]
            exact Nat.add_le_add_right hlen 1
      | false =>
          obtain ⟨c, hc, hspan⟩ := free_of_cell hz hzlive
          obtain ⟨l₁, l₂, rfl⟩ := List.append_of_mem hc
          unfold Chunk.span at hspan
          rw [hspan] at hadj hsize
          simp only at hadj hsize
          have hcsize : c.size
              = (m.load32 (b.p - 4) &&& sizeMask).setWidth 64 := by
            apply BitVec.eq_of_toNat_eq
            rw [BitVec.toNat_setWidth, hsize]
            exact (Nat.mod_eq_of_lt c.size.isLt).symm
          have hcaddr : c.addr
              = b.p - (m.load32 (b.p - 4) &&& sizeMask).setWidth 64 := by
            rw [← hcsize]
            apply BitVec.eq_of_toNat_eq
            rw [BitVec.toNat_sub]
            omega
          obtain ⟨hinv, _, hw, htag⟩ := hbehind.inv.freePrev_grow hbehind.load
            (by omega) hpage (hthis.mpr hzlive) hcaddr hcsize
          refine ⟨_, _, rfl, Returned.grow (s := { s with mem := m }) hret
            hadj hinv hw htag, rfl, rfl, ?_⟩
          rw [List.length_append, List.length_cons] at hlen ⊢
          omega

end

end UdeBench.Npr.FirstFit
