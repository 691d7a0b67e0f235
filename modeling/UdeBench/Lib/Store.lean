/-
A heap of objects of one type, whole values: an object has a number, and
the number of one that is gone is not used again.

`Owns s l` says what is in a heap: the objects with the numbers and values
of `l`, and no others. Each operation has a rule that rewrites `l`
(`Owns.malloc`, `Owns.load`, `Owns.store`, `Owns.free`), so what a program
holds is followed through it without a word about the rest. A heap with
nothing left is `Owns s []`.
-/
import Mathlib.Data.List.Nodup
import Mathlib.Data.List.Perm.Subperm
import Mathlib.Data.List.ReduceOption
import UdeBench.Lib.Yields

namespace UdeBench.Store

-- ================================================================ the heap

/-- The number of an object. -/
abbrev Ptr := Nat

/-- The objects there have been; those that are gone are `none`. -/
abbrev Heap (α : Type) := List (Option α)

/-- What can go wrong; `noReturn` is a loop that has run out of fuel. -/
inductive Fault
  | null | gone | overrun | mallocFailed | noReturn
deriving DecidableEq, Repr

/-- The excuse: the allocator did not answer. -/
def OutOfMemory (e : Fault) : Prop := e = .mallocFailed

section
variable {α : Type}

/-- The object with a number. -/
def Heap.obj (s : Heap α) (p : Ptr) : Option α := (s[p]?).join

/-- `malloc`, and the object filled in. `answers` says whether the
allocator answers, by the number of the object. -/
def malloc (answers : Nat → Bool) (s : Heap α) (a : α) :
    Except Fault (Heap α × Ptr) :=
  if answers s.length then .ok (s ++ [some a], s.length)
  else .error .mallocFailed

/-- The object behind a pointer. -/
def load (s : Heap α) : Option Ptr → Except Fault α
  | none => .error .null
  | some p =>
      match s.obj p with
      | some a => .ok a
      | none => .error .gone

/-- The object behind a pointer changed. -/
def store (s : Heap α) (q : Option Ptr) (a : α) : Except Fault (Heap α) :=
  match q with
  | none => .error .null
  | some p =>
      match s.obj p with
      | some _ => .ok (s.set p (some a))
      | none => .error .gone

/-- `free` of an object. -/
def free (s : Heap α) (p : Ptr) : Except Fault (Heap α) :=
  match s.obj p with
  | some _ => .ok (s.set p none)
  | none => .error .gone

/-- `free` of a pointer that may be null. -/
def freePtr (s : Heap α) : Option Ptr → Except Fault (Heap α)
  | none => .ok s
  | some p => free s p

-- =============================================================== ownership

/-- The objects of a heap are these. -/
structure Owns (s : Heap α) (l : List (Ptr × α)) : Prop where
  nodup : (l.map Prod.fst).Nodup
  obj : ∀ p a, s.obj p = some a ↔ (p, a) ∈ l

variable {s : Heap α} {l l₁ l₂ : List (Ptr × α)} {p : Ptr} {a b : α}

theorem Heap.obj_lt (h : s.obj p = some a) : p < s.length := by
  rcases Nat.lt_or_ge p s.length with hlt | hge
  · exact hlt
  · rw [Heap.obj, List.getElem?_eq_none hge] at h
    cases h

theorem Heap.obj_set {q : Ptr} {x : Option α} (hp : p < s.length) :
    Heap.obj (s.set p x) q = if q = p then x else s.obj q := by
  unfold Heap.obj
  rw [List.getElem?_set]
  by_cases hq : p = q
  · subst hq
    rw [if_pos rfl, if_pos hp, if_pos rfl]
    rfl
  · rw [if_neg hq, if_neg (Ne.symm hq)]

/-- A new heap. -/
theorem Owns.empty : Owns ([] : Heap α) [] := by
  refine ⟨List.nodup_nil, fun p a => ?_⟩
  simp [Heap.obj]

/-- The order is no matter. -/
theorem Owns.perm (h : Owns s l₁) (hl : l₁.Perm l₂) : Owns s l₂ :=
  ⟨(hl.map Prod.fst).nodup_iff.mp h.nodup,
    fun p a => (h.obj p a).trans hl.mem_iff⟩

/-- There is nothing else to say about a heap. -/
theorem Owns.eq_perm (h : Owns s l₁) (h' : Owns s l₂) : l₁.Perm l₂ := by
  refine (List.perm_ext_iff_of_nodup h.nodup.of_map h'.nodup.of_map).mpr ?_
  rintro ⟨p, a⟩
  exact (h.obj p a).symm.trans (h'.obj p a)

/-- Every object has its number. -/
theorem Owns.length_le (h : Owns s l) : l.length ≤ s.length := by
  have hsub : l.map Prod.fst ⊆ List.range s.length := by
    intro p hp
    obtain ⟨⟨q, a⟩, hmem, rfl⟩ := List.mem_map.mp hp
    exact List.mem_range.mpr (Heap.obj_lt ((h.obj q a).mpr hmem))
  have hle := (List.subperm_of_subset h.nodup hsub).length_le
  rwa [List.length_map, List.length_range] at hle

/-- What is owned can be read. -/
theorem Owns.load (h : Owns s l) (hmem : (p, a) ∈ l) :
    load s (some p) = .ok a := by
  have hobj := (h.obj p a).mpr hmem
  simp only [Store.load, hobj]

/-- One object more. -/
theorem Owns.concat (h : Owns s l) (a : α) :
    Owns (s ++ [some a]) ((s.length, a) :: l) := by
  refine ⟨?_, fun q b => ?_⟩
  · rw [List.map_cons, List.nodup_cons]
    refine ⟨fun hmem => ?_, h.nodup⟩
    obtain ⟨⟨q, b⟩, hqb, hq⟩ := List.mem_map.mp hmem
    have hlt := Heap.obj_lt ((h.obj q b).mpr hqb)
    exact Nat.ne_of_lt hlt hq
  · rw [List.mem_cons, ← h.obj, Prod.mk.injEq]
    unfold Heap.obj
    rcases Nat.lt_trichotomy q s.length with hlt | rfl | hgt
    · rw [List.getElem?_append_left hlt]
      constructor
      · exact .inr
      · rintro (⟨heq, -⟩ | hq)
        · exact absurd heq (Nat.ne_of_lt hlt)
        · exact hq
    · rw [List.getElem?_concat_length,
        List.getElem?_eq_none (Nat.le_refl _)]
      constructor
      · intro hb
        cases hb
        exact .inl ⟨rfl, rfl⟩
      · rintro (⟨-, rfl⟩ | hq)
        · rfl
        · cases hq
    · have hpast : (s ++ [some a]).length ≤ q := by
        rw [List.length_append]
        exact hgt
      rw [List.getElem?_eq_none hpast,
        List.getElem?_eq_none (Nat.le_of_lt hgt)]
      constructor
      · intro hb
        cases hb
      · rintro (⟨heq, -⟩ | hq)
        · exact absurd heq (Nat.ne_of_gt hgt)
        · exact hq

/-- A new object is owned as well. -/
theorem Owns.malloc (h : Owns s l) (answers : Nat → Bool) (a : α) :
    Yields OutOfMemory (malloc answers s a)
      fun r => Owns r.1 ((r.2, a) :: l) := by
  unfold Store.malloc
  split
  · exact .ok (h.concat a)
  · exact .error rfl

/-- Objects other than one that is owned. -/
theorem Owns.mem_others (h : Owns s (l₁ ++ (p, a) :: l₂)) {q : Ptr} {x : α}
    (hq : q ≠ p) : (q, x) ∈ l₁ ++ l₂ ↔ s.obj q = some x := by
  rw [h.obj]
  simp [hq]

/-- The number of an object is in no other place. -/
theorem Owns.not_mem_others (h : Owns s (l₁ ++ (p, a) :: l₂)) {x : α} :
    (p, x) ∉ l₁ ++ l₂ := by
  have hnd := h.nodup
  rw [List.map_append, List.map_cons, List.nodup_middle,
    List.nodup_cons, ← List.map_append] at hnd
  exact fun hmem => hnd.1 (List.mem_map.mpr ⟨(p, x), hmem, rfl⟩)

/-- What is owned can be changed. -/
theorem Owns.store (h : Owns s (l₁ ++ (p, a) :: l₂)) (b : α) :
    ∃ s', store s (some p) b = .ok s' ∧ Owns s' (l₁ ++ (p, b) :: l₂) := by
  have hobj : s.obj p = some a := (h.obj p a).mpr (by simp)
  have hlt := Heap.obj_lt hobj
  refine ⟨s.set p (some b), ?_, ?_, fun q x => ?_⟩
  · simp only [Store.store, hobj]
  · have hnd := h.nodup
    rw [List.map_append, List.map_cons] at hnd ⊢
    exact hnd
  · rw [Heap.obj_set hlt]
    by_cases hq : q = p
    · subst hq
      rw [if_pos rfl, List.perm_middle.mem_iff, List.mem_cons]
      constructor
      · intro hx
        cases hx
        exact .inl rfl
      · rintro (hx | hx)
        · cases hx
          rfl
        · exact absurd hx h.not_mem_others
    · rw [if_neg hq, ← h.mem_others hq]
      simp [hq]

/-- What is owned can be freed, once. -/
theorem Owns.free (h : Owns s (l₁ ++ (p, a) :: l₂)) :
    ∃ s', free s p = .ok s' ∧ Owns s' (l₁ ++ l₂) := by
  have hobj : s.obj p = some a := (h.obj p a).mpr (by simp)
  have hlt := Heap.obj_lt hobj
  refine ⟨s.set p none, ?_, ?_, fun q x => ?_⟩
  · simp only [Store.free, hobj]
  · have hnd := h.nodup
    rw [List.map_append, List.map_cons, List.nodup_middle,
      List.nodup_cons] at hnd
    rw [List.map_append]
    exact hnd.2
  · rw [Heap.obj_set hlt]
    by_cases hq : q = p
    · subst hq
      rw [if_pos rfl]
      constructor
      · intro hx
        cases hx
      · exact fun hx => absurd hx h.not_mem_others
    · rw [if_neg hq, h.mem_others hq]

/-- The first of them changed, or freed. -/
theorem Owns.store_head (h : Owns s ((p, a) :: l)) (b : α) :
    ∃ s', Store.store s (some p) b = .ok s' ∧ Owns s' ((p, b) :: l) := by
  rw [← List.nil_append ((p, a) :: l)] at h
  exact h.store b

theorem Owns.free_head (h : Owns s ((p, a) :: l)) :
    ∃ s', Store.free s p = .ok s' ∧ Owns s' l := by
  rw [← List.nil_append ((p, a) :: l)] at h
  exact h.free

/-- Some owned objects freed one after the other. -/
theorem Owns.freeAll {owned rest : List (Ptr × α)}
    (h : Owns s (owned ++ rest)) :
    ∃ s', (owned.map Prod.fst).foldlM Store.free s = .ok s'
      ∧ Owns s' rest := by
  induction owned generalizing s with
  | nil => exact ⟨s, rfl, h⟩
  | cons x owned ih =>
      obtain ⟨s₁, hfree, hown⟩ := Owns.free_head h
      obtain ⟨s', hs', hrest⟩ := ih hown
      refine ⟨s', ?_, hrest⟩
      rw [List.map_cons, List.foldlM_cons, hfree]
      exact hs'

/-- What has been freed without a fault was owned, and each of it once. -/
theorem Owns.of_freeAll {ps : List Ptr} {s' : Heap α} (h : Owns s l)
    (hps : ps.foldlM Store.free s = .ok s') :
    ∃ owned rest, l.Perm (owned ++ rest) ∧ owned.map Prod.fst = ps := by
  induction ps generalizing s l with
  | nil => exact ⟨[], l, List.Perm.refl _, rfl⟩
  | cons p ps ih =>
      rw [List.foldlM_cons] at hps
      obtain ⟨s₁, hfree, hrest⟩ := bind_eq_ok hps
      cases hobj : s.obj p with
      | none =>
          rw [Store.free, hobj] at hfree
          cases hfree
      | some a =>
          obtain ⟨l₁, l₂, rfl⟩ :=
            List.append_of_mem ((h.obj p a).mp hobj)
          obtain ⟨s₂, hs₂, hown⟩ := h.free
          rw [hs₂] at hfree
          cases hfree
          obtain ⟨owned, rest, hperm, howned⟩ := ih hown hrest
          refine ⟨(p, a) :: owned, rest, ?_, by rw [List.map_cons, howned]⟩
          exact List.perm_middle.trans (hperm.cons _)

/-- Null pointers are passed over. -/
theorem foldlM_freePtr (qs : List (Option Ptr)) (s : Heap α) :
    qs.foldlM freePtr s = qs.reduceOption.foldlM Store.free s := by
  induction qs generalizing s with
  | nil => rfl
  | cons q qs ih =>
      rw [List.foldlM_cons]
      cases q with
      | none => exact ih s
      | some p =>
          rw [List.reduceOption_cons_of_some, List.foldlM_cons]
          congr 1
          funext s
          exact ih s

/-- The only fault is an object that is gone. -/
theorem freeAll_error {ps : List Ptr} {e : Fault}
    (hps : ps.foldlM Store.free s = .error e) : e = .gone := by
  induction ps generalizing s with
  | nil => cases hps
  | cons p ps ih =>
      rw [List.foldlM_cons, Store.free] at hps
      cases hobj : s.obj p with
      | none =>
          rw [hobj] at hps
          cases hps
          rfl
      | some a =>
          rw [hobj] at hps
          exact ih hps

end

-- ========================================================== linked objects

section
variable {α β : Type}

/-- A pointer to the first of some linked objects. -/
def headPtr (c : List (Ptr × β)) : Option Ptr := c.head?.map Prod.fst

/-- Linked objects: each has a pointer to the next, the last one null. -/
def chained (mk : Option Ptr → β → α) : List (Ptr × β) → List (Ptr × α)
  | [] => []
  | (p, b) :: c => (p, mk (headPtr c) b) :: chained mk c

variable {mk : Option Ptr → β → α} {s : Heap α} {l : List (Ptr × α)}
  {p : Ptr} {b : β} {c : List (Ptr × β)}

theorem length_chained (c : List (Ptr × β)) :
    (chained mk c).length = c.length := by
  induction c with
  | nil => rfl
  | cons x c ih => rw [chained, List.length_cons, ih, List.length_cons]

/-- The first of them can be read. -/
theorem Owns.load_head (h : Owns s (chained mk ((p, b) :: c) ++ l)) :
    Store.load s (some p) = .ok (mk (headPtr c) b) :=
  h.load (by simp [chained])

/-- Linked objects whose last one points to `z`. -/
def segment (mk : Option Ptr → β → α) (z : Option Ptr) :
    List (Ptr × β) → List (Ptr × α)
  | [] => []
  | (p, b) :: c => (p, mk ((headPtr c).or z) b) :: segment mk z c

/-- A chain is cut anywhere: what is in front points to what is behind. -/
theorem chained_append (c d : List (Ptr × β)) :
    chained mk (c ++ d) = segment mk (headPtr d) c ++ chained mk d := by
  induction c with
  | nil => rfl
  | cons x c ih =>
      have hhead : headPtr (c ++ d) = (headPtr c).or (headPtr d) := by
        cases c <;> rfl
      rw [List.cons_append, chained, ih, segment, List.cons_append, hhead]

theorem segment_append (c d : List (Ptr × β)) (z : Option Ptr) :
    segment mk z (c ++ d)
      = segment mk ((headPtr d).or z) c ++ segment mk z d := by
  induction c with
  | nil => rfl
  | cons x c ih =>
      have hhead : (headPtr (c ++ d)).or z
          = (headPtr c).or ((headPtr d).or z) := by
        cases c <;> rfl
      rw [List.cons_append, segment, ih, segment, List.cons_append, hhead]

end

end UdeBench.Store
