/-
Memory as the C standard lets a program see it: objects, each with its
own bytes, and pointers that stand for an object and an offset in it.

A byte that was never written is `none`. Reading one is no error, since
copying it is none; an access that leaves its object, or that goes
through a null pointer or to an object that is gone, is. Allocations are
objects of their own, so what is stored in one is found in no other.

Whether the allocator answers a request is a parameter, of the number of
the request and its size. What no allocator answers is a request of more
than half the address space (`oversized`): its size is a program's
mistake.

An access of no bytes needs no object.
-/
import Mathlib.Tactic.Ring
import UdeBench.Lib.Yields

namespace UdeBench.Objects

abbrev Byte := BitVec 8

/-- A byte of an object, if it has been written. -/
abbrev Cell := Option Byte

/-- What can go wrong. -/
inductive Fault
  | outOfMemory | oversized | outOfBounds | badFree
deriving DecidableEq, Repr

-- ============================================================== objects

/-- An object: its size and its bytes. -/
structure Obj where
  size : Nat
  cell : Nat → Cell

namespace Obj

/-- An object that has not been written to. -/
def blank (size : Nat) : Obj := ⟨size, fun _ => none⟩

/-- The `n` bytes from `off` on. -/
def get (o : Obj) (off n : Nat) : List Cell :=
  (List.range n).map fun i => o.cell (off + i)

/-- Bytes written from `off` on. -/
def put (o : Obj) (off : Nat) (cs : List Cell) : Obj where
  size := o.size
  cell i := if off ≤ i then (cs[i - off]?).getD (o.cell i) else o.cell i

/-- The bytes that fit moved to an object of another size. -/
def resized (o : Obj) (size : Nat) : Obj where
  size := size
  cell i := if i < o.size then o.cell i else none

variable {o : Obj} {off n : Nat} {cs : List Cell}

@[simp] theorem put_size : (o.put off cs).size = o.size := rfl

@[simp] theorem resized_size : (o.resized n).size = n := rfl

@[simp] theorem length_get : (o.get off n).length = n := by
  simp [get]

theorem getElem?_get (i : Nat) :
    (o.get off n)[i]? = if i < n then some (o.cell (off + i)) else none := by
  unfold get
  rw [List.getElem?_map]
  by_cases hi : i < n
  · rw [List.getElem?_range hi, if_pos hi]
    rfl
  · rw [List.getElem?_eq_none (by simpa using hi), if_neg hi]
    rfl

/-- A range is determined by its bytes. -/
theorem get_congr {o' : Obj} {off' : Nat}
    (h : ∀ i, i < n → o'.cell (off' + i) = o.cell (off + i)) :
    o'.get off' n = o.get off n := by
  unfold get
  refine List.map_congr_left fun i hi => ?_
  exact h i (List.mem_range.mp hi)

/-- Two ranges behind each other. -/
theorem get_append (m : Nat) :
    o.get off (n + m) = o.get off n ++ o.get (off + n) m := by
  unfold get
  rw [List.range_add, List.map_append, List.map_map]
  congr 1
  refine List.map_congr_left fun i _ => ?_
  show o.cell (off + (n + i)) = o.cell (off + n + i)
  rw [Nat.add_assoc]

/-- The front of a range. -/
theorem take_get {k : Nat} (hk : k ≤ n) :
    (o.get off n).take k = o.get off k := by
  obtain ⟨m, rfl⟩ := Nat.exists_eq_add_of_le hk
  rw [get_append, List.take_left' length_get]

/-- What was written is read back. -/
theorem get_put_self (o : Obj) (off : Nat) (cs : List Cell) :
    (o.put off cs).get off cs.length = cs := by
  apply List.ext_getElem? fun i => ?_
  rw [getElem?_get]
  by_cases hi : i < cs.length
  · simp [put, hi]
  · rw [if_neg hi, List.getElem?_eq_none (by omega)]

/-- What lies apart is as it was. -/
theorem cell_put_apart {i : Nat} (h : i < off ∨ off + cs.length ≤ i) :
    (o.put off cs).cell i = o.cell i := by
  unfold put
  simp only
  by_cases hi : off ≤ i
  · rw [if_pos hi, List.getElem?_eq_none (by omega)]
    rfl
  · rw [if_neg hi]

theorem get_put_apart {a : Nat}
    (h : a + n ≤ off ∨ off + cs.length ≤ a) :
    (o.put off cs).get a n = o.get a n :=
  get_congr fun i hi => cell_put_apart (by omega)

@[simp] theorem put_nil : o.put off [] = o := by
  cases o
  simp [put]

/-- What fits moves along. -/
theorem get_resized {size : Nat} (h : off + n ≤ o.size) :
    (o.resized size).get off n = o.get off n :=
  get_congr fun i hi => if_pos (by omega)

end Obj

-- =============================================================== memory

/-- A pointer to the start of an object: its number. -/
abbrev Ptr := Nat

/-- The objects there have been, by their numbers; those that are gone
are `none`. -/
abbrev Mem := List (Option Obj)

/-- The object of a number. -/
def Mem.obj (m : Mem) (p : Ptr) : Option Obj := (m[p]?).join

/-- Whether the allocator answers: by the number of the request and its
size. -/
abbrev Answers := Nat → Nat → Bool

/-- The excuse: there is a request that the allocator does not answer. -/
def OutOfMemory (answers : Answers) (e : Fault) : Prop :=
  e = .outOfMemory ∧ ∃ n size, answers n size = false

/-- The end of the sizes an allocator may answer: `PTRDIFF_MAX`. -/
def ptrdiffMax : Nat := 2 ^ 63 - 1

section
variable (answers : Answers)

/-- A new object in the place of number `m.length`. -/
def enter (m : Mem) (o : Obj) : Except Fault (Mem × Ptr) :=
  if ptrdiffMax < o.size then .error .oversized
  else if answers m.length o.size then .ok (m ++ [some o], m.length)
  else .error .outOfMemory

/-- `malloc`. -/
def malloc (m : Mem) (size : Nat) : Except Fault (Mem × Ptr) :=
  enter answers m (.blank size)

/-- `realloc`. -/
def realloc (m : Mem) (p : Option Ptr) (size : Nat) :
    Except Fault (Mem × Ptr) :=
  match p with
  | none => malloc answers m size
  | some p =>
      match m.obj p with
      | none => .error .badFree
      | some o => enter answers (m.set p none) (o.resized size)

end

/-- `free`. -/
def free (m : Mem) (p : Ptr) : Except Fault Mem :=
  match m.obj p with
  | none => .error .badFree
  | some _ => .ok (m.set p none)

/-- The `n` bytes from an offset of an object on. -/
def read (m : Mem) (p : Option Ptr) (off : Int) (n : Nat) :
    Except Fault (List Cell) :=
  if n = 0 then .ok []
  else
    match p.bind m.obj with
    | none => .error .outOfBounds
    | some o =>
        if 0 ≤ off ∧ off + n ≤ o.size then .ok (o.get off.toNat n)
        else .error .outOfBounds

/-- Bytes written from an offset of an object on. -/
def write (m : Mem) (p : Option Ptr) (off : Int) (cs : List Cell) :
    Except Fault Mem :=
  if cs = [] then .ok m
  else
    match p, p.bind m.obj with
    | some p, some o =>
        if 0 ≤ off ∧ off + cs.length ≤ o.size then
          .ok (m.set p (some (o.put off.toNat cs)))
        else .error .outOfBounds
    | _, _ => .error .outOfBounds

/-- `memcpy` from one object to another. -/
def memcpy (m : Mem) (dst : Option Ptr) (dstOff : Int) (src : Option Ptr)
    (srcOff : Int) (n : Nat) : Except Fault Mem := do
  let cs ← read m src srcOff n
  write m dst dstOff cs

/-- An object with these bytes and no others. -/
def Mem.Contains (m : Mem) (p : Ptr) (cs : List Cell) : Prop :=
  ∃ o, m.obj p = some o ∧ o.size = cs.length ∧ o.get 0 cs.length = cs

-- ================================================================ rules

variable {answers : Answers} {m : Mem} {p q : Ptr} {o : Obj}

theorem Mem.obj_lt (h : m.obj p = some o) : p < m.length := by
  unfold Mem.obj at h
  by_contra hp
  rw [List.getElem?_eq_none (Nat.not_lt.mp hp)] at h
  cases h

/-- An object changed: it, and no other. -/
theorem Mem.obj_set_self (h : p < m.length) (x : Option Obj) :
    Mem.obj (m.set p x) p = x := by
  unfold Mem.obj
  rw [List.getElem?_set_self h]
  rfl

theorem Mem.obj_set_other (h : q ≠ p) (x : Option Obj) :
    Mem.obj (m.set p x) q = m.obj q := by
  unfold Mem.obj
  rw [List.getElem?_set_ne (Ne.symm h)]

theorem Mem.obj_append (x : Option Obj) (h : p < m.length) :
    Mem.obj (m ++ [x]) p = m.obj p := by
  unfold Mem.obj
  rw [List.getElem?_append_left h]

theorem Mem.obj_concat (x : Option Obj) :
    Mem.obj (m ++ [x]) m.length = x := by
  unfold Mem.obj
  rw [List.getElem?_concat_length]
  rfl

/-- A new object beside those there are. -/
theorem enter_yields (ho : o.size ≤ ptrdiffMax) :
    Yields (OutOfMemory answers) (enter answers m o) fun r =>
      Mem.obj r.1 r.2 = some o ∧ r.2 = m.length
        ∧ ∀ q, q < m.length → Mem.obj r.1 q = m.obj q := by
  unfold enter
  rw [if_neg (Nat.not_lt.mpr ho)]
  by_cases ha : answers m.length o.size = true
  · rw [if_pos ha]
    exact ⟨Mem.obj_concat _, rfl, fun q hq => Mem.obj_append _ hq⟩
  · rw [if_neg ha]
    exact ⟨rfl, m.length, o.size, Bool.not_eq_true _ ▸ ha⟩

/-- No allocator answers a request of more than half the address space. -/
theorem enter_oversized (ho : ptrdiffMax < o.size) :
    enter answers m o = .error .oversized := if_pos ho

/-- What an allocation that was answered gave. -/
theorem enter_eq_ok {r : Mem × Ptr} (h : enter answers m o = .ok r) :
    Mem.obj r.1 r.2 = some o ∧ o.size ≤ ptrdiffMax := by
  unfold enter at h
  split at h
  · cases h
  · split at h
    · cases h
      exact ⟨Mem.obj_concat _, Nat.not_lt.mp ‹_›⟩
    · cases h

/-- What a `realloc` that was answered gave. -/
theorem realloc_eq_ok {x : Option Ptr} {size : Nat} {r : Mem × Ptr}
    (h : realloc answers m x size = .ok r) :
    ∃ o, Mem.obj r.1 r.2 = some o ∧ o.size = size ∧ size ≤ ptrdiffMax := by
  unfold realloc at h
  split at h
  · obtain ⟨hobj, hsize⟩ := enter_eq_ok h
    exact ⟨_, hobj, rfl, hsize⟩
  · split at h
    · cases h
    · obtain ⟨hobj, hsize⟩ := enter_eq_ok h
      exact ⟨_, hobj, rfl, hsize⟩

theorem malloc_yields (answers : Answers) (m : Mem) {size : Nat}
    (hs : size ≤ ptrdiffMax) :
    Yields (OutOfMemory answers) (malloc answers m size) fun r =>
      Mem.obj r.1 r.2 = some (.blank size) ∧ r.2 = m.length
        ∧ ∀ q, q < m.length → Mem.obj r.1 q = m.obj q :=
  enter_yields hs

/-- The object grows, and takes a new number. -/
theorem realloc_yields {size : Nat} (hs : size ≤ ptrdiffMax)
    (hp : m.obj p = some o) :
    Yields (OutOfMemory answers) (realloc answers m (some p) size) fun r =>
      Mem.obj r.1 r.2 = some (o.resized size) ∧ r.2 = m.length
        ∧ ∀ q, q < m.length → q ≠ p → Mem.obj r.1 q = m.obj q := by
  unfold realloc
  simp only [hp]
  have ho : (o.resized size).size ≤ ptrdiffMax := hs
  refine (enter_yields ho).mono fun r hr => ?_
  obtain ⟨hobj, hptr, hrest⟩ := hr
  rw [List.length_set] at hptr hrest
  refine ⟨hobj, hptr, fun q hq hqp => ?_⟩
  rw [hrest q hq, Mem.obj_set_other hqp]

theorem free_ok (hp : m.obj p = some o) : free m p = .ok (m.set p none) := by
  unfold free
  rw [hp]

/-- A read within an object. -/
theorem read_ok {off : Int} {n : Nat} (hp : m.obj p = some o) (hlo : 0 ≤ off)
    (hhi : off + n ≤ o.size) :
    read m (some p) off n = .ok (o.get off.toNat n) := by
  unfold read
  by_cases hn : n = 0
  · rw [if_pos hn, hn]
    rfl
  · rw [if_neg hn, Option.bind_some, hp]
    exact if_pos ⟨hlo, hhi⟩

/-- A write within an object. -/
theorem write_ok (off : Int) (cs : List Cell) (hp : m.obj p = some o)
    (hlo : 0 ≤ off) (hhi : off + cs.length ≤ o.size) :
    ∃ m', write m (some p) off cs = .ok m'
      ∧ m'.obj p = some (o.put off.toNat cs)
      ∧ ∀ q, q ≠ p → m'.obj q = m.obj q := by
  unfold write
  by_cases hcs : cs = []
  · subst hcs
    rw [if_pos rfl]
    refine ⟨m, rfl, ?_, fun q _ => rfl⟩
    rw [hp, Obj.put_nil]
  · rw [if_neg hcs]
    simp only [Option.bind_some, hp]
    rw [if_pos ⟨hlo, hhi⟩]
    exact ⟨_, rfl, Mem.obj_set_self (Mem.obj_lt hp) _,
      fun q hq => Mem.obj_set_other hq _⟩

/-- A write that was done was within an object. -/
theorem write_eq_ok {x : Option Ptr} {off : Int} {cs : List Cell} {m' : Mem}
    (h : write m x off cs = .ok m') (hcs : cs ≠ []) :
    ∃ p o, x = some p ∧ m.obj p = some o ∧ off + cs.length ≤ o.size := by
  unfold write at h
  rw [if_neg hcs] at h
  split at h
  · rename_i p o ho
    split at h
    · exact ⟨p, o, rfl, ho, And.right ‹_›⟩
    · cases h
  · cases h

/-- A copy from one object to another. -/
theorem memcpy_ok {dst src : Ptr} {d s : Obj} {n : Nat}
    (hd : m.obj dst = some d) (hs : m.obj src = some s)
    (hdn : n ≤ d.size) (hsn : n ≤ s.size) :
    ∃ m', memcpy m (some dst) 0 (some src) 0 n = .ok m'
      ∧ m'.obj dst = some (d.put 0 (s.get 0 n))
      ∧ ∀ q, q ≠ dst → m'.obj q = m.obj q := by
  unfold memcpy
  rw [read_ok hs (Int.le_refl 0) (by omega)]
  exact write_ok 0 _ hd (Int.le_refl 0) (by rw [Obj.length_get]; omega)

/-- A copy of the front of an object in a new one. -/
theorem memcpy_contains {dst src : Ptr} {s : Obj} {n : Nat}
    (hd : m.obj dst = some (.blank n)) (hs : m.obj src = some s)
    (hn : n ≤ s.size) :
    ∃ m', memcpy m (some dst) 0 (some src) 0 n = .ok m'
      ∧ m'.Contains dst (s.get 0 n) ∧ ∀ q, q ≠ dst → m'.obj q = m.obj q := by
  obtain ⟨m', hm', hobj, hrest⟩ := memcpy_ok hd hs (Nat.le_refl _) hn
  exact ⟨m', hm', ⟨_, hobj, Obj.length_get.symm, Obj.get_put_self _ _ _⟩, hrest⟩

/-- What another object contains stays. -/
theorem Mem.Contains.congr {m' : Mem} {cs : List Cell}
    (h : m.Contains p cs) (hp : m'.obj p = m.obj p) : m'.Contains p cs := by
  obtain ⟨o, ho, hsize, hget⟩ := h
  exact ⟨o, hp.trans ho, hsize, hget⟩

end UdeBench.Objects
