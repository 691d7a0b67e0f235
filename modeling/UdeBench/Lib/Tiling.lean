/-
Pieces cut from regions: an allocator's regions lie apart, each with a
header in front, and what it has cut from them are aligned pieces behind
the headers that lie apart, too.

`Covers` says that nothing of a region behind its header is left out, by
its points: then the pieces of a region follow each other without a gap
(`Tiling.next`).

Who holds a piece is the caller's matter. A piece changes hands by
moving in the list (`Tiling.perm`), is cut in two or joined with the one
behind it (`split`, `join`), and comes and goes with its region
(`addRegion`, `dropRegion`).
-/
import Mathlib.Data.List.Perm.Basic
import UdeBench.Lib.Spans

namespace UdeBench.Spans

/-- A piece of a region, behind its header. -/
def Inside (header : Nat) (r q : Span) : Prop :=
  r.1 + header ≤ q.1 ∧ q.1 + q.2 ≤ r.1 + r.2

/-- A piece is not empty, and aligned at both ends. -/
def Aligned (align : Nat) (q : Span) : Prop :=
  0 < q.2 ∧ q.1 % align = 0 ∧ q.2 % align = 0

/-- Pieces of regions. -/
structure Tiling (header align : Nat) (regions pieces : List Span) :
    Prop where
  regionsApart : regions.Pairwise Apart
  apart : pieces.Pairwise Apart
  inside : ∀ q ∈ pieces, ∃ r ∈ regions, Inside header r q
  aligned : ∀ q ∈ pieces, Aligned align q

variable {header align : Nat} {regions pieces : List Span}

/-- Two regions of a list that share a point are one. -/
theorem eq_of_pairwise_apart {l : List Span} (h : l.Pairwise Apart)
    {r r' : Span} (hr : r ∈ l) (hr' : r' ∈ l) (hno : ¬ Apart r r') :
    r = r' := by
  induction l with
  | nil => cases hr
  | cons s l ih =>
      obtain ⟨hs, hl⟩ := List.pairwise_cons.mp h
      rcases List.mem_cons.mp hr with heq | hmem
      · rcases List.mem_cons.mp hr' with heq' | hmem'
        · exact heq.trans heq'.symm
        · exact absurd (heq ▸ hs r' hmem') hno
      · rcases List.mem_cons.mp hr' with heq' | hmem'
        · exact absurd (heq' ▸ hs r hmem).symm hno
        · exact ih hl hmem hmem'

/-- The order of the pieces does not matter. -/
theorem Tiling.perm {pieces' : List Span}
    (h : Tiling header align regions pieces) (hp : pieces.Perm pieces') :
    Tiling header align regions pieces' :=
  ⟨h.regionsApart, (hp.pairwise_iff Apart.symm).mp h.apart,
    fun q hq => h.inside q (hp.mem_iff.mpr hq),
    fun q hq => h.aligned q (hp.mem_iff.mpr hq)⟩

/-- Nor does that of the regions. -/
theorem Tiling.permRegions {regions' : List Span}
    (h : Tiling header align regions pieces) (hp : regions.Perm regions') :
    Tiling header align regions' pieces := by
  refine ⟨(hp.pairwise_iff Apart.symm).mp h.regionsApart, h.apart, ?_,
    h.aligned⟩
  intro q hq
  obtain ⟨r, hr, hin⟩ := h.inside q hq
  exact ⟨r, hp.mem_iff.mp hr, hin⟩

/-- A piece given up. -/
theorem Tiling.tail {q : Span}
    (h : Tiling header align regions (q :: pieces)) :
    Tiling header align regions pieces :=
  ⟨h.regionsApart, (List.pairwise_cons.mp h.apart).2,
    fun q' hq => h.inside q' (List.mem_cons_of_mem _ hq),
    fun q' hq => h.aligned q' (List.mem_cons_of_mem _ hq)⟩

/-- The first piece lies apart from the others. -/
theorem Tiling.head_apart {q : Span}
    (h : Tiling header align regions (q :: pieces)) :
    ∀ q' ∈ pieces, Apart q q' := (List.pairwise_cons.mp h.apart).1

/-- A piece beside the others. -/
theorem Tiling.cons {q r : Span} (h : Tiling header align regions pieces)
    (hr : r ∈ regions) (hin : Inside header r q) (hq : Aligned align q)
    (hapart : ∀ q' ∈ pieces, Apart q q') :
    Tiling header align regions (q :: pieces) := by
  refine ⟨h.regionsApart, List.pairwise_cons.mpr ⟨hapart, h.apart⟩, ?_, ?_⟩
  · intro q' hq'
    rcases List.mem_cons.mp hq' with rfl | hq'
    · exact ⟨r, hr, hin⟩
    · exact h.inside q' hq'
  · intro q' hq'
    rcases List.mem_cons.mp hq' with rfl | hq'
    · exact hq
    · exact h.aligned q' hq'

/-- A piece cut in two. -/
theorem Tiling.split {x s t : Nat}
    (h : Tiling header align regions ((x, s + t) :: pieces)) (hs : 0 < s)
    (ht : 0 < t) (hmod : s % align = 0) :
    Tiling header align regions ((x, s) :: (x + s, t) :: pieces) := by
  obtain ⟨r, hr, hlo, hhi⟩ := h.inside _ List.mem_cons_self
  obtain ⟨_, hx, hsum⟩ := h.aligned _ List.mem_cons_self
  have hapart := h.head_apart
  have hs' := Nat.dvd_of_mod_eq_zero hmod
  have hx' := Nat.dvd_of_mod_eq_zero hx
  have hsum' := Nat.dvd_of_mod_eq_zero hsum
  have hback : Tiling header align regions ((x + s, t) :: pieces) := by
    refine h.tail.cons hr ⟨by simp only at hlo ⊢; omega,
      by simp only at hhi ⊢; omega⟩ ⟨ht, ?_, ?_⟩ ?_
    · exact Nat.mod_eq_zero_of_dvd (Nat.dvd_add hx' hs')
    · exact Nat.mod_eq_zero_of_dvd ((Nat.dvd_add_right hs').mp hsum')
    · intro q' hq'
      have hq := hapart q' hq'
      unfold Apart at hq ⊢
      simp only at hq ⊢
      omega
  refine hback.cons hr ⟨hlo, by simp only at hhi ⊢; omega⟩
    ⟨hs, hx, hmod⟩ ?_
  intro q' hq'
  rcases List.mem_cons.mp hq' with rfl | hq'
  · exact .inl (Nat.le_refl _)
  · have hq := hapart q' hq'
    unfold Apart at hq ⊢
    simp only at hq ⊢
    omega

/-- Two adjacent pieces joined: they lie in one region, for a header is
between any two. -/
theorem Tiling.join {x s t : Nat} (hheader : 0 < header)
    (h : Tiling header align regions ((x, s) :: (x + s, t) :: pieces)) :
    Tiling header align regions ((x, s + t) :: pieces) := by
  obtain ⟨r, hr, hlo, hhi⟩ := h.inside _ List.mem_cons_self
  obtain ⟨r', hr', hlo', hhi'⟩ :=
    h.inside (x + s, t) (List.mem_cons_of_mem _ List.mem_cons_self)
  obtain ⟨hs, hx, hsmod⟩ := h.aligned _ List.mem_cons_self
  obtain ⟨ht, _, htmod⟩ :=
    h.aligned (x + s, t) (List.mem_cons_of_mem _ List.mem_cons_self)
  have hsame : r = r' := by
    apply eq_of_pairwise_apart h.regionsApart hr hr'
    intro hapart
    unfold Apart at hapart
    simp only at *
    omega
  subst hsame
  refine h.tail.tail.cons hr ⟨hlo, by simp only at *; omega⟩
    ⟨by simp only; omega, hx, ?_⟩ ?_
  · exact Nat.mod_eq_zero_of_dvd (Nat.dvd_add
      (Nat.dvd_of_mod_eq_zero hsmod) (Nat.dvd_of_mod_eq_zero htmod))
  · intro q' hq'
    have hfront := h.head_apart q' (List.mem_cons_of_mem _ hq')
    have hback := h.tail.head_apart q' hq'
    obtain ⟨hpos, _, _⟩ := h.tail.tail.aligned q' hq'
    unfold Apart at *
    simp only at *
    omega

/-- A new region, and the piece that fills it. -/
theorem Tiling.addRegion {r : Span} (h : Tiling header align regions pieces)
    (hr : ∀ r' ∈ regions, Apart r r') (hsize : header < r.2)
    (halign : Aligned align (r.1 + header, r.2 - header)) :
    Tiling header align (r :: regions)
      ((r.1 + header, r.2 - header) :: pieces) := by
  have hall : Tiling header align (r :: regions) pieces :=
    ⟨List.pairwise_cons.mpr ⟨hr, h.regionsApart⟩, h.apart,
      fun q hq => by
        obtain ⟨r', hr', hin⟩ := h.inside q hq
        exact ⟨r', List.mem_cons_of_mem _ hr', hin⟩,
      h.aligned⟩
  refine hall.cons List.mem_cons_self ⟨Nat.le_refl _, ?_⟩ halign ?_
  · simp only
    omega
  · intro q hq
    obtain ⟨r', hr', hlo, hhi⟩ := h.inside q hq
    have hapart := hr r' hr'
    unfold Apart at hapart ⊢
    simp only
    omega

/-- A region that is one piece, given back with it. -/
theorem Tiling.dropRegion {r : Span}
    (h : Tiling header align (r :: regions)
      ((r.1 + header, r.2 - header) :: pieces)) :
    Tiling header align regions pieces := by
  refine ⟨(List.pairwise_cons.mp h.regionsApart).2, h.tail.apart, ?_,
    h.tail.aligned⟩
  intro q hq
  obtain ⟨r', hr', hlo, hhi⟩ := h.tail.inside q hq
  rcases List.mem_cons.mp hr' with rfl | hr'
  · have hapart := h.head_apart q hq
    obtain ⟨hpos, _, _⟩ := h.tail.aligned q hq
    unfold Apart at hapart
    simp only at hapart
    omega
  · exact ⟨r', hr', hlo, hhi⟩

-- ============================================================== no gaps

/-- Every point of a region behind its header is in a piece. -/
def Covers (header : Nat) (regions pieces : List Span) : Prop :=
  ∀ r ∈ regions, ∀ x, r.1 + header ≤ x → x < r.1 + r.2 →
    ∃ q ∈ pieces, q.1 ≤ x ∧ x < q.1 + q.2

theorem Covers.mono {pieces' : List Span} (h : Covers header regions pieces)
    (hsub : ∀ q ∈ pieces, q ∈ pieces') : Covers header regions pieces' := by
  intro r hr x hlo hhi
  obtain ⟨q, hq, hin⟩ := h r hr x hlo hhi
  exact ⟨q, hsub q hq, hin⟩

theorem Covers.split {x s t : Nat}
    (h : Covers header regions ((x, s + t) :: pieces)) :
    Covers header regions ((x, s) :: (x + s, t) :: pieces) := by
  intro r hr y hlo hhi
  obtain ⟨q, hq, hqlo, hqhi⟩ := h r hr y hlo hhi
  rcases List.mem_cons.mp hq with rfl | hq
  · by_cases hfront : y < x + s
    · exact ⟨(x, s), List.mem_cons_self, hqlo, hfront⟩
    · refine ⟨(x + s, t), List.mem_cons_of_mem _ List.mem_cons_self, ?_, ?_⟩
      all_goals simp only at *; omega
  · exact ⟨q, List.mem_cons_of_mem _ (List.mem_cons_of_mem _ hq), hqlo, hqhi⟩

theorem Covers.join {x s t : Nat}
    (h : Covers header regions ((x, s) :: (x + s, t) :: pieces)) :
    Covers header regions ((x, s + t) :: pieces) := by
  intro r hr y hlo hhi
  obtain ⟨q, hq, hqlo, hqhi⟩ := h r hr y hlo hhi
  rcases List.mem_cons.mp hq with rfl | hq
  · refine ⟨(x, s + t), List.mem_cons_self, hqlo, ?_⟩
    simp only at *
    omega
  · rcases List.mem_cons.mp hq with rfl | hq
    · refine ⟨(x, s + t), List.mem_cons_self, ?_, ?_⟩
      all_goals simp only at *; omega
    · exact ⟨q, List.mem_cons_of_mem _ hq, hqlo, hqhi⟩

theorem Covers.addRegion {r : Span} (h : Covers header regions pieces)
    (hsize : header ≤ r.2) :
    Covers header (r :: regions)
      ((r.1 + header, r.2 - header) :: pieces) := by
  intro r' hr' x hlo hhi
  rcases List.mem_cons.mp hr' with rfl | hr'
  · refine ⟨_, List.mem_cons_self, hlo, ?_⟩
    simp only
    omega
  · obtain ⟨q, hq, hin⟩ := h r' hr' x hlo hhi
    exact ⟨q, List.mem_cons_of_mem _ hq, hin⟩

/-- A piece that shares a point with a region lies in it. -/
theorem Tiling.inside_of (h : Tiling header align regions pieces) {q r : Span}
    (hq : q ∈ pieces) (hr : r ∈ regions) {x : Nat} (hlo : q.1 ≤ x)
    (hhi : x < q.1 + q.2) (hrlo : r.1 ≤ x) (hrhi : x < r.1 + r.2) :
    Inside header r q := by
  obtain ⟨r', hr', hin⟩ := h.inside q hq
  have hsame : r' = r := by
    apply eq_of_pairwise_apart h.regionsApart hr' hr
    intro hapart
    obtain ⟨hinlo, hinhi⟩ := hin
    unfold Apart at hapart
    omega
  rwa [← hsame]

/-- Behind a piece there is another one, or the region ends. -/
theorem Tiling.next (h : Tiling header align regions pieces)
    (hc : Covers header regions pieces) {q r : Span} (hq : q ∈ pieces)
    (hr : r ∈ regions) (hin : Inside header r q) :
    q.1 + q.2 = r.1 + r.2 ∨ ∃ q' ∈ pieces, q'.1 = q.1 + q.2 := by
  obtain ⟨hlo, hhi⟩ := hin
  obtain ⟨hpos, _, _⟩ := h.aligned q hq
  by_cases hend : q.1 + q.2 = r.1 + r.2
  · exact .inl hend
  · right
    obtain ⟨q', hq', hqlo, hqhi⟩ :=
      hc r hr (q.1 + q.2) (by omega) (by omega)
    refine ⟨q', hq', ?_⟩
    by_cases hsame : q' = q
    · rw [hsame] at hqhi
      omega
    · have hapart : Apart q' q := by
        by_contra hno
        exact hsame (eq_of_pairwise_apart h.apart hq' hq hno)
      unfold Apart at hapart
      omega

/-- In front of a piece there is another one, or the header. -/
theorem Tiling.prev (h : Tiling header align regions pieces)
    (hc : Covers header regions pieces) {q r : Span} (hq : q ∈ pieces)
    (hr : r ∈ regions) (hin : Inside header r q) :
    q.1 = r.1 + header ∨ ∃ q' ∈ pieces, q'.1 + q'.2 = q.1 := by
  obtain ⟨hlo, hhi⟩ := hin
  obtain ⟨hpos, _, _⟩ := h.aligned q hq
  by_cases hfirst : q.1 = r.1 + header
  · exact .inl hfirst
  · right
    obtain ⟨q', hq', hqlo, hqhi⟩ :=
      hc r hr (q.1 - 1) (by omega) (by omega)
    refine ⟨q', hq', ?_⟩
    by_cases hsame : q' = q
    · rw [hsame] at hqlo
      omega
    · have hapart : Apart q' q := by
        by_contra hno
        exact hsame (eq_of_pairwise_apart h.apart hq' hq hno)
      unfold Apart at hapart
      omega

/-- No piece starts where a region ends. -/
theorem Tiling.none_at_end (h : Tiling header align regions pieces)
    {q r : Span} (hq : q ∈ pieces) (hr : r ∈ regions)
    (hheader : 0 < header) : q.1 ≠ r.1 + r.2 := by
  intro heq
  obtain ⟨r', hr', hlo, hhi⟩ := h.inside q hq
  obtain ⟨hpos, _, _⟩ := h.aligned q hq
  by_cases hsame : r' = r
  · rw [hsame] at hhi
    omega
  · have hapart : Apart r' r := by
      by_contra hno
      exact hsame (eq_of_pairwise_apart h.regionsApart hr' hr hno)
    unfold Apart at hapart
    omega

/-- No piece ends where the first of a region starts. -/
theorem Tiling.none_before_first (h : Tiling header align regions pieces)
    {q r : Span} (hq : q ∈ pieces) (hr : r ∈ regions)
    (hheader : 0 < header) (hsize : header ≤ r.2) :
    q.1 + q.2 ≠ r.1 + header := by
  intro heq
  obtain ⟨hpos, _, _⟩ := h.aligned q hq
  obtain ⟨hlo, _⟩ := h.inside_of hq hr (x := max q.1 r.1) (by omega)
    (by omega) (by omega) (by omega)
  omega

/-- Apart and not empty, no two of a list are one. -/
theorem nodup_of_pairwise_apart {l : List Span} (h : l.Pairwise Apart)
    (hpos : ∀ q ∈ l, 0 < q.2) : l.Nodup := by
  refine h.imp_of_mem fun {p q} hp _ hapart heq => ?_
  have hsize := hpos p hp
  rw [← heq] at hapart
  unfold Apart at hapart
  omega

/-- Pieces without gaps of which no two touch are whole regions. -/
theorem Tiling.full (h : Tiling header align regions pieces)
    (hc : Covers header regions pieces)
    (hlonely : ∀ p ∈ pieces, ∀ q ∈ pieces, q.1 ≠ p.1 + p.2)
    (hsize : ∀ r ∈ regions, header < r.2) :
    pieces.Perm (regions.map fun r => (r.1 + header, r.2 - header)) := by
  have hwhole : ∀ q ∈ pieces, ∀ r ∈ regions, Inside header r q →
      q = (r.1 + header, r.2 - header) := by
    intro q hq r hr hin
    have hfirst : q.1 = r.1 + header := by
      rcases h.prev hc hq hr hin with hfirst | ⟨p, hp, hadj⟩
      · exact hfirst
      · exact absurd hadj.symm (hlonely p hp q hq)
    have hlast : q.1 + q.2 = r.1 + r.2 := by
      rcases h.next hc hq hr hin with hlast | ⟨p, hp, hadj⟩
      · exact hlast
      · exact absurd hadj (hlonely q hq p hp)
    refine Prod.ext hfirst ?_
    simp only
    omega
  have hshort : ((regions.map fun r : Span => (r.1 + header, r.2 - header)) :
      List Span).Pairwise Apart := by
    rw [List.pairwise_map]
    refine h.regionsApart.imp fun {r r'} hapart => ?_
    unfold Apart at *
    simp only
    omega
  refine (List.perm_ext_iff_of_nodup
    (nodup_of_pairwise_apart h.apart fun q hq => (h.aligned q hq).1)
    (nodup_of_pairwise_apart hshort ?_)).mpr fun q => ⟨fun hq => ?_,
      fun hq => ?_⟩
  · intro q hq
    obtain ⟨r, hr, rfl⟩ := List.mem_map.mp hq
    have hlt := hsize r hr
    simp only
    omega
  · obtain ⟨r, hr, hin⟩ := h.inside q hq
    rw [hwhole q hq r hr hin]
    exact List.mem_map_of_mem hr
  · -- the piece that covers its start
    obtain ⟨r, hr, rfl⟩ := List.mem_map.mp hq
    have hlt := hsize r hr
    obtain ⟨p, hp, hlo, hhi⟩ :=
      hc r hr (r.1 + header) (Nat.le_refl _) (by omega)
    have hin := h.inside_of hp hr hlo hhi (Nat.le_add_right _ _) (by omega)
    rw [← hwhole p hp r hr hin]
    exact hp

end UdeBench.Spans
