/-
Arrays with spare room, over any type: cells, of which those in front are
in use. A push into a full array doubles the cells first, resizing past
the end makes twice the cells asked for. Spare cells keep what they held.

`Step` is what a reader of the cells in use may rely on, whatever the
spare ones are: a push appends, a pop takes the last, resizing keeps what
both lengths have in common. `elems_*` say that the array does just that.
-/
import Mathlib.Data.List.Basic

namespace UdeBench

/-- Cells, and how many of them are in use. -/
structure Slots (α : Type) where
  cells : List α
  used : Nat
  used_le : used ≤ cells.length
  pos : 0 < cells.length

namespace Slots

variable {α : Type}

-- =========================================================== operations

/-- An empty array with room for `n`. -/
def new (x : α) (n : Nat) (h : 0 < n) : Slots α where
  cells := List.replicate n x
  used := 0
  used_le := Nat.zero_le _
  pos := by rwa [List.length_replicate]

/-- Room for `n`, where there is less. -/
def extend (x : α) (s : Slots α) (n : Nat) : Slots α where
  cells := s.cells ++ List.replicate (n - s.cells.length) x
  used := s.used
  used_le := by
    rw [List.length_append]
    exact Nat.le_trans s.used_le (Nat.le_add_right _ _)
  pos := by
    rw [List.length_append]
    exact Nat.lt_of_lt_of_le s.pos (Nat.le_add_right _ _)

/-- The room a push needs. -/
def roomForPush (s : Slots α) : Nat :=
  if s.cells.length ≤ s.used then s.cells.length * 2 else s.cells.length

/-- The room for `n` in use. -/
def roomFor (s : Slots α) (n : Nat) : Nat :=
  if n ≤ s.cells.length then s.cells.length else n * 2

/-- An element behind the last. -/
def push (x : α) (s : Slots α) (a : α) : Slots α where
  cells := (s.extend x s.roomForPush).cells.set s.used a
  used := s.used + 1
  used_le := by
    have hpos := s.pos
    have hle := s.used_le
    simp only [extend, List.length_set, List.length_append,
      List.length_replicate, roomForPush]
    split <;> omega
  pos := by
    rw [List.length_set]
    exact (s.extend x s.roomForPush).pos

/-- The last element given up. -/
def pop (s : Slots α) : Slots α where
  cells := s.cells
  used := s.used - 1
  used_le := Nat.le_trans (Nat.sub_le _ _) s.used_le
  pos := s.pos

/-- `n` cells in use. -/
def resize (x : α) (s : Slots α) (n : Nat) : Slots α where
  cells := (s.extend x (s.roomFor n)).cells
  used := n
  used_le := by
    simp only [extend, List.length_append, List.length_replicate, roomFor]
    split <;> omega
  pos := (s.extend x (s.roomFor n)).pos

/-- The elements. -/
def elems (s : Slots α) : List α := s.cells.take s.used

-- ================================================================ rules

variable {s : Slots α} {x a : α} {n : Nat}

@[simp] theorem used_extend : (s.extend x n).used = s.used := rfl

theorem length_extend (h : s.cells.length ≤ n) :
    (s.extend x n).cells.length = n := by
  simp only [extend, List.length_append, List.length_replicate]
  omega

@[simp] theorem extend_self : s.extend x s.cells.length = s := by
  unfold extend
  simp

theorem le_roomForPush : s.cells.length ≤ s.roomForPush := by
  unfold roomForPush
  split <;> omega

theorem used_lt_roomForPush : s.used < s.roomForPush := by
  have hpos := s.pos
  have hle := s.used_le
  unfold roomForPush
  split <;> omega

theorem le_roomFor : s.cells.length ≤ s.roomFor n := by
  unfold roomFor
  split <;> omega

@[simp] theorem length_elems : s.elems.length = s.used := by
  rw [elems, List.length_take, Nat.min_eq_left s.used_le]

/-- More room changes no element. -/
theorem elems_extend : (s.extend x n).elems = s.elems := by
  unfold elems extend
  simp only
  rw [List.take_append_of_le_length s.used_le]

theorem elems_push : (s.push x a).elems = s.elems ++ [a] := by
  have hlt : s.used < (s.extend x s.roomForPush).cells.length := by
    rw [length_extend le_roomForPush]
    exact used_lt_roomForPush
  have hsame := elems_extend (s := s) (x := x) (n := s.roomForPush)
  unfold elems at *
  rw [used_extend] at hsame
  unfold push
  rw [List.take_add_one, List.getElem?_set_self hlt, List.take_set_of_le
    (Nat.le_refl _), hsame]
  rfl

/-- The last element of a pop. -/
theorem elems_pop_append (h : 0 < s.used) :
    ∃ a, s.cells[s.used - 1]? = some a ∧ s.elems = s.pop.elems ++ [a] := by
  have hlt : s.used - 1 < s.cells.length := by
    have hle := s.used_le
    omega
  refine ⟨s.cells[s.used - 1], List.getElem?_eq_getElem hlt, ?_⟩
  have hsucc : s.used - 1 + 1 = s.used := Nat.succ_pred_eq_of_pos h
  unfold elems pop
  simp only
  conv_lhs => rw [← hsucc]
  rw [List.take_add_one, List.getElem?_eq_getElem hlt]
  rfl

theorem elems_resize :
    (s.resize x n).elems.take s.used = s.elems.take n := by
  have hsame := elems_extend (s := s) (x := x) (n := s.roomFor n)
  unfold elems at *
  rw [used_extend] at hsame
  unfold resize
  simp only
  rw [List.take_take, Nat.min_comm, ← List.take_take, hsame]

-- ================================================================ steps

/-- What is done to an array. -/
inductive Op (α : Type)
  | push (a : α)
  | pop
  | resize (n : Nat)

/-- What a list becomes, and what comes out. -/
inductive Step : List α → Op α → List α → Option α → Prop
  | push (l : List α) (a : α) : Step l (.push a) (l ++ [a]) none
  | pop (l : List α) (a : α) : Step (l ++ [a]) .pop l (some a)
  | resize (l l' : List α) (n : Nat) (hlen : l'.length = n)
      (hkeep : l'.take l.length = l.take n) : Step l (.resize n) l' none

/-- A run of steps. -/
inductive Steps : List α → List (Op α) → List α → List α → Prop
  | nil (l : List α) : Steps l [] l []
  | cons {l l' l'' : List α} {o : Op α} {os : List (Op α)}
      {out : Option α} {outs : List α} (h : Step l o l' out)
      (hs : Steps l' os l'' outs) : Steps l (o :: os) l'' (out.toList ++ outs)

/-- The array does its steps. -/
theorem step_push : Step s.elems (.push a) (s.push x a).elems none := by
  rw [elems_push]
  exact .push _ _

theorem step_pop (h : 0 < s.used) :
    ∃ a, s.cells[s.used - 1]? = some a
      ∧ Step s.elems .pop s.pop.elems (some a) := by
  obtain ⟨a, ha, hsplit⟩ := elems_pop_append h
  refine ⟨a, ha, ?_⟩
  rw [hsplit]
  exact .pop _ _

theorem step_resize :
    Step s.elems (.resize n) (s.resize x n).elems none := by
  refine .resize _ _ n ?_ ?_
  · rw [length_elems]
    rfl
  · rw [length_elems, elems_resize]

end Slots

end UdeBench
