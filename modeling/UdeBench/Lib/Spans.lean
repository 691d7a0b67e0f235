/-
Disjoint intervals in a bounded address space, and the one fact counting
arguments take from them: lengths of pairwise disjoint intervals below a
bound add up to at most the bound.

An allocator's contract is stated with these intervals: the blocks it
has handed out lie apart and inside the address space (`Placed`). What
a program that never checks for overflow relies on is then a
consequence, not an assumption: its objects cannot be larger in sum than
the space they lie in.
-/
import Mathlib.Data.List.Pairwise
import Mathlib.Order.Interval.Finset.Nat
import Mathlib.Tactic.Ring

namespace UdeBench.Spans

/-- An interval: its start and its length. -/
abbrev Span := Nat × Nat

/-- One interval ends before the other starts. -/
def Apart (a b : Span) : Prop := a.1 + a.2 ≤ b.1 ∨ b.1 + b.2 ≤ a.1

instance (a b : Span) : Decidable (Apart a b) :=
  inferInstanceAs (Decidable (_ ∨ _))

theorem Apart.symm {a b : Span} (h : Apart a b) : Apart b a := Or.symm h

/-- The points of an interval. -/
def points (a : Span) : Finset Nat := Finset.Ico a.1 (a.1 + a.2)

/-- The points of a list of intervals. -/
def cover (l : List Span) : Finset Nat :=
  l.foldr (fun a s => points a ∪ s) ∅

@[simp] theorem mem_cover {l : List Span} {x : Nat} :
    x ∈ cover l ↔ ∃ a ∈ l, x ∈ points a := by
  induction l with
  | nil => simp [cover]
  | cons a l ih =>
      have hc : cover (a :: l) = points a ∪ cover l := rfl
      rw [hc, Finset.mem_union, ih]
      simp

/-- Intervals that lie apart share no point. -/
theorem Apart.disjoint {a b : Span} (h : Apart a b) :
    Disjoint (points a) (points b) := by
  rw [Finset.disjoint_left]
  intro x hxa hxb
  simp only [points, Finset.mem_Ico] at hxa hxb
  rcases h with h | h <;> omega

/-- The cover of pairwise disjoint intervals has as many points as their
lengths add up to. -/
theorem card_cover {l : List Span} (h : l.Pairwise Apart) :
    (cover l).card = (l.map Prod.snd).sum := by
  induction l with
  | nil => rfl
  | cons a l ih =>
      rw [List.pairwise_cons] at h
      have hdisj : Disjoint (points a) (cover l) := by
        rw [Finset.disjoint_right]
        intro x hx
        obtain ⟨b, hb, hxb⟩ := mem_cover.mp hx
        exact Finset.disjoint_right.mp (h.1 b hb).disjoint hxb
      have hcard : (points a).card = a.2 := by simp [points]
      calc (cover (a :: l)).card
          = (points a).card + (cover l).card :=
            Finset.card_union_of_disjoint hdisj
        _ = ((a :: l).map Prod.snd).sum := by
            rw [hcard, ih h.2, List.map_cons, List.sum_cons]

/-- Pairwise disjoint intervals below a bound are no longer, in sum,
than the bound. -/
theorem sum_le_of_pairwise_apart {l : List Span} {bound : Nat}
    (hp : l.Pairwise Apart) (hb : ∀ a ∈ l, a.1 + a.2 ≤ bound) :
    (l.map Prod.snd).sum ≤ bound := by
  rw [← card_cover hp]
  have hsub : cover l ⊆ Finset.range bound := by
    intro x hx
    obtain ⟨a, ha, hxa⟩ := mem_cover.mp hx
    have hle := hb a ha
    simp only [points, Finset.mem_Ico] at hxa
    exact Finset.mem_range.mpr (by omega)
  simpa using Finset.card_le_card hsub

/-- Objects of the given sizes are placed in an address space of `space`
bytes: each has an address, and they lie apart. -/
def Placed (space : Nat) (sizes : List Nat) : Prop :=
  ∃ l : List Span, l.map Prod.snd = sizes ∧ l.Pairwise Apart
    ∧ ∀ a ∈ l, a.1 + a.2 ≤ space

/-- What is placed fits. -/
theorem Placed.sum_le {space : Nat} {sizes : List Nat}
    (h : Placed space sizes) : sizes.sum ≤ space := by
  obtain ⟨l, hl, hp, hb⟩ := h
  rw [← hl]
  exact sum_le_of_pairwise_apart hp hb

/-- What fits can be placed, one object after the other from `base`. -/
theorem exists_consecutive {space : Nat} :
    ∀ (sizes : List Nat) (base : Nat), base + sizes.sum ≤ space →
      ∃ l : List Span, l.map Prod.snd = sizes ∧ l.Pairwise Apart
        ∧ ∀ a ∈ l, base ≤ a.1 ∧ a.1 + a.2 ≤ space := by
  intro sizes
  induction sizes with
  | nil =>
      intro base _
      exact ⟨[], rfl, List.Pairwise.nil, fun a ha => by cases ha⟩
  | cons n sizes ih =>
      intro base h
      rw [List.sum_cons] at h
      obtain ⟨l, hl, hp, hb⟩ := ih (base + n) (by omega)
      refine ⟨(base, n) :: l, by rw [List.map_cons, hl], ?_, ?_⟩
      · refine List.Pairwise.cons (fun b hbl => ?_) hp
        exact .inl (hb b hbl).1
      · intro a ha
        rcases List.mem_cons.mp ha with rfl | ha
        · exact ⟨Nat.le_refl _, by simp only; omega⟩
        · have hab := hb a ha
          exact ⟨by omega, hab.2⟩

/-- Objects can be placed exactly when they fit. -/
theorem placed_iff {space : Nat} {sizes : List Nat} :
    Placed space sizes ↔ sizes.sum ≤ space := by
  constructor
  · exact Placed.sum_le
  · intro h
    have h0 : 0 + sizes.sum ≤ space := by
      rw [Nat.zero_add]
      exact h
    obtain ⟨l, hl, hp, hb⟩ := exists_consecutive sizes 0 h0
    exact ⟨l, hl, hp, fun a ha => (hb a ha).2⟩

end UdeBench.Spans
