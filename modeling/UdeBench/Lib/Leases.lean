/-
Ranges that are given and returned, point by point: after every event a
point is held or not, and giving a point that is held, or returning one
that is not, is wrong for good.

`Leased es rs` says that after the events `es` the points held are those
of the ranges `rs`. In the end everything given has been returned
exactly once, and nothing else, if no point is held and nothing went
wrong (`Balanced`). Where of each range that is held a part is returned,
this is so exactly if the parts are the whole ranges
(`Leased.balanced_iff`).
-/
import Mathlib.Data.List.Perm.Basic
import UdeBench.Lib.Spans

namespace UdeBench.Leases

open Spans

-- ================================================================ events

inductive Event
  | given (r : Span)
  | returned (r : Span)
deriving DecidableEq, Repr

/-- A point of a range. -/
def On (r : Span) (x : Nat) : Prop := r.1 ≤ x ∧ x < r.1 + r.2

instance (r : Span) (x : Nat) : Decidable (On r x) :=
  inferInstanceAs (Decidable (_ ∧ _))

/-- What an event makes of a point. -/
def Event.turn (x : Nat) (held : Bool) : Event → Option Bool
  | given r =>
      if On r x then (if held then none else some true) else some held
  | returned r =>
      if On r x then (if held then some false else none) else some held

/-- Whether a point is held after the events. -/
def heldAt (x : Nat) (es : List Event) : Option Bool :=
  es.foldlM (Event.turn x) false

/-- Everything given has been returned once, and nothing else. -/
def Balanced (es : List Event) : Prop := ∀ x, heldAt x es = some false

/-- What is held after the events: the points of the ranges. -/
def Leased (es : List Event) (rs : List Span) : Prop :=
  ∀ x, heldAt x es = some (decide (∃ r ∈ rs, On r x))

-- ================================================================= rules

variable {es fs : List Event} {rs rs' : List Span} {r : Span} {x : Nat}

theorem heldAt_append : heldAt x (es ++ fs)
    = (heldAt x es).bind fun held => fs.foldlM (Event.turn x) held := by
  unfold heldAt
  rw [List.foldlM_append]
  rfl

theorem heldAt_concat (e : Event) : heldAt x (es ++ [e])
    = (heldAt x es).bind fun held => e.turn x held := by
  rw [heldAt_append]
  congr 1
  funext held
  rw [List.foldlM_cons]
  cases e.turn x held <;> rfl

theorem Leased.nil : Leased [] [] := fun x => by
  simp [heldAt]

theorem Leased.congr (h : Leased es rs) (hmem : ∀ r, r ∈ rs ↔ r ∈ rs') :
    Leased es rs' := by
  intro x
  rw [h x]
  congr 2
  simp only [hmem]

/-- A point of one of two ranges that lie apart is not in the other. -/
theorem not_on_of_apart {q : Span} (h : Apart r q) (hx : On r x) :
    ¬ On q x := by
  unfold Apart On at *
  omega

/-- A range is given that is apart from what is held. -/
theorem Leased.give (h : Leased es rs) (hr : ∀ q ∈ rs, Apart r q) :
    Leased (es ++ [.given r]) (r :: rs) := by
  intro x
  rw [heldAt_concat, h x, Option.bind_some]
  by_cases hx : On r x
  · have hnone : ¬ ∃ q ∈ rs, On q x := by
      rintro ⟨q, hq, hxq⟩
      exact not_on_of_apart (hr q hq) hx hxq
    simp [Event.turn, hx, hnone]
  · simp [Event.turn, hx]

/-- A range that is held is returned. -/
theorem Leased.giveBack (h : Leased es (r :: rs)) (hr : ∀ q ∈ rs, Apart r q) :
    Leased (es ++ [.returned r]) rs := by
  intro x
  rw [heldAt_concat, h x, Option.bind_some]
  by_cases hx : On r x
  · have hnone : ¬ ∃ q ∈ rs, On q x := by
      rintro ⟨q, hq, hxq⟩
      exact not_on_of_apart (hr q hq) hx hxq
    simp only [Prod.exists] at hnone
    simp [Event.turn, hx, hnone]
  · simp [Event.turn, hx]

/-- Ranges that are returned elsewhere do not matter to a point. -/
theorem heldAt_elsewhere {qs : List Span} (hqs : ∀ q ∈ qs, ¬ On q x) :
    heldAt x (es ++ qs.map .returned) = heldAt x es := by
  induction qs generalizing es with
  | nil => rw [List.map_nil, List.append_nil]
  | cons q qs ih =>
      have hsplit : es ++ (q :: qs).map Event.returned
          = (es ++ [.returned q]) ++ qs.map .returned := by
        rw [List.append_assoc]
        rfl
      rw [hsplit, ih fun p hp => hqs p (List.mem_cons_of_mem _ hp),
        heldAt_concat]
      have hx := hqs q List.mem_cons_self
      cases heldAt x es with
      | none => rfl
      | some held => simp [Event.turn, hx]

/-- A part of a range that is not the whole misses a point. -/
theorem missed {part : Option Span} (hpos : 0 < r.2)
    (hin : ∀ q, part = some q → r.1 ≤ q.1 ∧ q.1 + q.2 ≤ r.1 + r.2)
    (hne : part ≠ some r) : ∃ x, On r x ∧ ∀ q, part = some q → ¬ On q x := by
  obtain ⟨a, n⟩ := r
  have hfirst : On (a, n) a := ⟨Nat.le_refl _, Nat.lt_add_of_pos_right hpos⟩
  cases part with
  | none => exact ⟨a, hfirst, fun q hq => (nomatch hq)⟩
  | some q =>
      obtain ⟨hlo, hhi⟩ := hin q rfl
      simp only at hlo hhi
      by_cases hstart : q.1 = a
      · have hshort : q.2 ≠ n := by
          rintro rfl
          exact hne (congrArg some (Prod.ext hstart rfl))
        refine ⟨a + q.2, ⟨Nat.le_add_right _ _, by simp only; omega⟩, ?_⟩
        rintro _ ⟨rfl⟩ ⟨_, hx⟩
        omega
      · refine ⟨a, hfirst, ?_⟩
        rintro _ ⟨rfl⟩ ⟨hx, _⟩
        omega

/-- Where of each range that is held a part is returned: the parts must
be the whole ranges. Induction on the ranges. -/
theorem Leased.balanced_iff {α : Type} {whole : α → Span}
    {part : α → Option Span} {l : List α} (h : Leased es (l.map whole))
    (hapart : (l.map whole).Pairwise Apart)
    (hpos : ∀ a ∈ l, 0 < (whole a).2)
    (hin : ∀ a ∈ l, ∀ q, part a = some q →
      (whole a).1 ≤ q.1 ∧ q.1 + q.2 ≤ (whole a).1 + (whole a).2) :
    Balanced (es ++ (l.filterMap part).map .returned)
      ↔ ∀ a ∈ l, part a = some (whole a) := by
  induction l generalizing es with
  | nil =>
      simp only [List.filterMap_nil, List.map_nil, List.append_nil]
      refine ⟨fun _ a ha => (nomatch ha), fun _ x => ?_⟩
      rw [h x]
      simp
  | cons a l ih =>
      rw [List.map_cons] at h hapart
      obtain ⟨ha, hapart⟩ := List.pairwise_cons.mp hapart
      rw [List.forall_mem_cons] at hpos hin
      by_cases hwhole : part a = some (whole a)
      · have hsplit : es ++ ((a :: l).filterMap part).map Event.returned
            = (es ++ [.returned (whole a)])
              ++ (l.filterMap part).map .returned := by
          rw [List.filterMap_cons_some hwhole, List.append_assoc]
          rfl
        rw [hsplit, ih (h.giveBack ha) hapart hpos.2 hin.2,
          List.forall_mem_cons]
        exact ⟨fun hrest => ⟨hwhole, hrest⟩, And.right⟩
      · -- a point of it is held to the end
        refine ⟨fun hb => ?_, fun hall =>
          absurd (hall a List.mem_cons_self) hwhole⟩
        obtain ⟨x, hx, hmissed⟩ := missed hpos.1 hin.1 hwhole
        have hend := hb x
        rw [heldAt_elsewhere, h x] at hend
        · have hheld : ∃ r ∈ whole a :: l.map whole, On r x :=
            ⟨_, List.mem_cons_self, hx⟩
          rw [decide_eq_true hheld] at hend
          cases hend
        · intro q hq hxq
          obtain ⟨b, hb, hpart⟩ := List.mem_filterMap.mp hq
          rcases List.mem_cons.mp hb with rfl | hb
          · exact hmissed q hpart hxq
          · obtain ⟨hlo, hhi⟩ := hin.2 b hb q hpart
            have hdisj := ha _ (List.mem_map_of_mem hb)
            unfold Apart On at *
            omega

end UdeBench.Leases
