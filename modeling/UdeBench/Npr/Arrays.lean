/-
The growable array of npr/varray.c by whole elements, for the programs
that keep their data in one: ag/ag_gen.c its labels and references,
npr/free-chain.c its pointers and destructors.

Varray.lean has the array by its bytes. Here the memory behind `elements`
holds a list, in a heap of its own, and a `realloc` is a new object for the
old one. `w` is the width of a `size_t`: 32 for the code generator, which
runs what it generates, and 64 for the free chain.

`Filled` says that an array holds a list and owns its heap. A push may
move the array, and frees what it was moved from. No array holds as many
elements as half of the address space has bytes (`Filled.lt`), so sizes do
not wrap around. The `int` that a loop counts up to may (`turns`).
-/
import UdeBench.Lib.Ints
import UdeBench.Lib.Store

namespace UdeBench.Npr.Arrays

open Store (Ptr Heap Fault load store)

/-- `struct npr_varray`. -/
structure Varray (w : Nat) where
  nelem : BitVec w
  size : BitVec w
  elemSize : BitVec w
  elements : Ptr
deriving DecidableEq, Repr

/-- What is behind `elements`: so many bytes, and the elements in them. -/
structure Elements (β : Type) where
  bytes : Nat
  list : List β
deriving DecidableEq, Repr

section
variable {w : Nat} {β : Type} (ans : Nat → Bool)

/-- `malloc`, which answers for no more than half of the address space. -/
def allocElems (h : Heap (Elements β)) (sz : BitVec w) (es : List β) :
    Except Fault (Heap (Elements β) × Ptr) :=
  if 2 * sz.toNat < 2 ^ w then Store.malloc ans h ⟨sz.toNat, es⟩
  else .error .mallocFailed

/-- `npr_varray_init`. -/
def varrayInit (h : Heap (Elements β)) (n elemSize : BitVec w) :
    Except Fault (Heap (Elements β) × Varray w) := do
  let (h, elements) ← allocElems ans h (elemSize * n) []
  .ok (h, ⟨0, n, elemSize, elements⟩)

/-- `npr_varray_realloc`: what fits is kept. -/
def varrayRealloc (h : Heap (Elements β)) (a : Varray w) :
    Except Fault (Heap (Elements β) × Varray w) := do
  let size := a.size * 2
  let sz := size * a.elemSize
  let o ← load h (some a.elements)
  let es := o.list.take (sz.toNat / a.elemSize.toNat)
  let (h, elements) ← allocElems ans h sz es
  let h ← Store.free h a.elements
  .ok (h, { a with size, elements })

/-- The growth of `VA_PUSH`. -/
def makeRoom (h : Heap (Elements β)) (a : Varray w) :
    Except Fault (Heap (Elements β) × Varray w) :=
  if a.size ≤ a.nelem then varrayRealloc ans h a else .ok (h, a)

/-- `VA_PUSH`: the element behind the others must lie in the buffer. -/
def vaPush (h : Heap (Elements β)) (a : Varray w) (x : β) :
    Except Fault (Heap (Elements β) × Varray w) := do
  let (h, a) ← makeRoom ans h a
  let o ← load h (some a.elements)
  if (a.nelem.toNat + 1) * a.elemSize.toNat ≤ o.bytes
      ∧ o.list.length = a.nelem.toNat then
    let h ← store h (some a.elements) { o with list := o.list ++ [x] }
    .ok (h, { a with nelem := a.nelem + 1 })
  else .error .overrun

end

section
variable {w : Nat} {β : Type}

/-- The elements, to be read through `VA_ELEM`. -/
def elems (h : Heap (Elements β)) (a : Varray w) :
    Except Fault (List β) := do
  let o ← load h (some a.elements)
  .ok o.list

/-- An element written through `VA_ELEM_PTR`. -/
def setElem (h : Heap (Elements β)) (a : Varray w) (i : Nat) (x : β) :
    Except Fault (Heap (Elements β)) := do
  let o ← load h (some a.elements)
  if i < o.list.length then
    store h (some a.elements) { o with list := o.list.set i x }
  else .error .overrun

/-- `npr_varray_discard`. -/
def varrayDiscard (h : Heap (Elements β)) (a : Varray w) :
    Except Fault (Heap (Elements β)) :=
  Store.free h a.elements

/-- The turns of `for (i=0; i<n; i++)` where `int n` is a count of
elements. -/
def turns (nelem : BitVec w) : Nat := (nelem.setWidth 32).toInt.toNat

-- =================================================================== counts

variable {nelem : BitVec w}

theorem turns_of_lt (h : nelem.toNat < 2 ^ 31) :
    turns nelem = nelem.toNat := by
  have hword : (nelem.setWidth 32).toNat = nelem.toNat := by
    rw [BitVec.toNat_setWidth]
    exact Nat.mod_eq_of_lt (by omega)
  rw [turns, Ints.toInt_of_lt (by omega), hword, Int.toNat_natCast]

/-- As an `int` the count is negative. -/
theorem turns_of_le (h : 2 ^ 31 ≤ nelem.toNat) (hlt : nelem.toNat < 2 ^ 32) :
    turns nelem = 0 := by
  have hword : (nelem.setWidth 32).toNat = nelem.toNat := by
    rw [BitVec.toNat_setWidth]
    exact Nat.mod_eq_of_lt hlt
  rw [turns, Ints.toInt_of_le (by omega), hword]
  omega

-- ================================================================= contents

/-- An array in memory, in a heap of its own. -/
structure Filled (h : Heap (Elements β)) (a : Varray w) (es : List β) :
    Prop where
  owns : Store.Owns h
    [(a.elements, ⟨a.size.toNat * a.elemSize.toNat, es⟩)]
  nelem : a.nelem.toNat = es.length
  le : a.nelem.toNat ≤ a.size.toNat
  pos : 0 < a.size.toNat
  elemPos : 0 < a.elemSize.toNat
  fits : 2 * (a.size.toNat * a.elemSize.toNat) < 2 ^ w

variable {h : Heap (Elements β)} {a : Varray w} {es : List β}

theorem Filled.load (hf : Filled h a es) :
    Store.load h (some a.elements)
      = .ok ⟨a.size.toNat * a.elemSize.toNat, es⟩ :=
  hf.owns.load (List.mem_singleton.mpr rfl)

theorem Filled.elems (hf : Filled h a es) : elems h a = .ok es := by
  rw [Arrays.elems, hf.load]
  rfl

/-- Half of the address space bounds the elements as well. -/
theorem Filled.size_lt (hf : Filled h a es) : 2 * a.size.toNat < 2 ^ w := by
  have hle := Nat.le_mul_of_pos_right a.size.toNat hf.elemPos
  have hfits := hf.fits
  omega

theorem Filled.lt (hf : Filled h a es) : 2 * es.length < 2 ^ w := by
  have hsize := hf.size_lt
  have hle := hf.le
  rw [hf.nelem] at hle
  omega

/-- A loop that meets every element. -/
theorem Filled.take_turns (hf : Filled h a es) (hlt : es.length < 2 ^ 31) :
    es.take (turns a.nelem) = es := by
  rw [← hf.nelem] at hlt
  rw [turns_of_lt hlt, hf.nelem, List.take_length]

/-- One that meets none. -/
theorem Filled.take_turns_none (hf : Filled h a es)
    (hle : 2 ^ 31 ≤ es.length) (hlt : es.length < 2 ^ 32) :
    es.take (turns a.nelem) = [] := by
  rw [← hf.nelem] at hle hlt
  rw [turns_of_le hle hlt, List.take_zero]

/-- An element changed. -/
theorem Filled.setElem (hf : Filled h a es) {i : Nat} (hi : i < es.length)
    (x : β) : ∃ h', setElem h a i x = .ok h' ∧ Filled h' a (es.set i x) := by
  obtain ⟨h', hstore, hown⟩ := hf.owns.store_head
    ⟨a.size.toNat * a.elemSize.toNat, es.set i x⟩
  refine ⟨h', ?_, hown, ?_, hf.le, hf.pos, hf.elemPos, hf.fits⟩
  · rw [Arrays.setElem, hf.load, ok_bind, if_pos hi]
    exact hstore
  · rw [List.length_set]
    exact hf.nelem

/-- Its heap is empty when it is gone. -/
theorem Filled.discard (hf : Filled h a es) :
    ∃ h', varrayDiscard h a = .ok h' ∧ Store.Owns h' [] :=
  hf.owns.free_head

/-- A new array. -/
theorem varrayInit_yields (ans : Nat → Bool) {n elemSize : BitVec w}
    (hn : 0 < n.toNat) (helem : 0 < elemSize.toNat)
    (hfits : 2 * (n.toNat * elemSize.toNat) < 2 ^ w) :
    Yields Store.OutOfMemory (varrayInit (β := β) ans [] n elemSize)
      fun r => Filled r.1 r.2 [] := by
  have hsz : (elemSize * n).toNat = n.toNat * elemSize.toNat := by
    rw [BitVec.toNat_mul, Nat.mul_comm]
    exact Nat.mod_eq_of_lt (by omega)
  unfold varrayInit allocElems
  rw [hsz, if_pos hfits]
  exact (Store.Owns.empty.malloc ans _).bind fun _ hown =>
    .ok ⟨hown, rfl, Nat.zero_le _, hn, helem, hfits⟩

/-- Twice the size, and the bytes for it: no product wraps around. -/
theorem Filled.doubled (hf : Filled h a es) :
    (a.size * 2).toNat = 2 * a.size.toNat
      ∧ (a.size * 2 * a.elemSize).toNat
        = 2 * a.size.toNat * a.elemSize.toNat := by
  have hsize := hf.size_lt
  have hpos := hf.pos
  have htwo : (2 : BitVec w).toNat = 2 :=
    (BitVec.toNat_ofNat 2 w).trans (Nat.mod_eq_of_lt (by omega))
  have hdouble : (a.size * 2).toNat = 2 * a.size.toNat := by
    rw [BitVec.toNat_mul, htwo, Nat.mul_comm]
    exact Nat.mod_eq_of_lt hsize
  refine ⟨hdouble, ?_⟩
  rw [BitVec.toNat_mul, hdouble]
  exact Nat.mod_eq_of_lt (by rw [Nat.mul_assoc]; exact hf.fits)

/-- Room for as many again. -/
theorem Filled.realloc (ans : Nat → Bool) (hf : Filled h a es) :
    Yields Store.OutOfMemory (varrayRealloc ans h a)
      fun r => Filled r.1 r.2 es ∧ r.2.nelem.toNat < r.2.size.toNat := by
  obtain ⟨hdouble, hbytes⟩ := hf.doubled
  have hle := hf.le
  have hpos := hf.pos
  have hgrown : a.nelem.toNat < (a.size * 2).toNat := by omega
  have hpos' : 0 < (a.size * 2).toNat := by omega
  have hkept : es.take ((a.size * 2 * a.elemSize).toNat / a.elemSize.toNat)
      = es := by
    rw [hbytes, Nat.mul_div_cancel _ hf.elemPos]
    exact List.take_of_length_le (by rw [← hf.nelem]; omega)
  unfold varrayRealloc
  simp only [hf.load, ok_bind, hkept]
  unfold allocElems
  split
  · next hfits =>
    refine (hf.owns.malloc ans _).bind fun r hown => ?_
    obtain ⟨h', hfree, hown'⟩ :=
      (hown.perm (List.Perm.swap _ _ _)).free_head
    show Yields Store.OutOfMemory (Store.free r.1 a.elements >>= _) _
    rw [hfree]
    rw [hbytes, ← hdouble] at hown' hfits
    exact .ok ⟨⟨hown', hf.nelem, Nat.le_of_lt hgrown, hpos', hf.elemPos,
      hfits⟩, hgrown⟩
  · exact .error rfl

/-- A push. -/
theorem Filled.push (ans : Nat → Bool) (hf : Filled h a es) (x : β) :
    Yields Store.OutOfMemory (vaPush ans h a x)
      fun r => Filled r.1 r.2 (es ++ [x]) := by
  have hroom : Yields Store.OutOfMemory (makeRoom ans h a)
      fun r => Filled r.1 r.2 es ∧ r.2.nelem.toNat < r.2.size.toNat := by
    unfold makeRoom
    by_cases hfull : a.size ≤ a.nelem
    · rw [if_pos hfull]
      exact hf.realloc ans
    · rw [if_neg hfull]
      exact .ok ⟨hf, Nat.lt_of_not_le hfull⟩
  unfold vaPush
  refine hroom.bind fun r ⟨hr, hlt⟩ => ?_
  obtain ⟨h', hstore, hown⟩ := hr.owns.store_head
    ⟨r.2.size.toNat * r.2.elemSize.toNat, es ++ [x]⟩
  have hin : (r.2.nelem.toNat + 1) * r.2.elemSize.toNat
      ≤ r.2.size.toNat * r.2.elemSize.toNat :=
    Nat.mul_le_mul_right _ hlt
  have hnelem : (r.2.nelem + 1).toNat = r.2.nelem.toNat + 1 := by
    have hsize := hr.size_lt
    have hone : (1 : BitVec w).toNat = 1 :=
      (BitVec.toNat_ofNat 1 w).trans (Nat.mod_eq_of_lt (by omega))
    rw [BitVec.toNat_add, hone]
    exact Nat.mod_eq_of_lt (by omega)
  show Yields Store.OutOfMemory (Store.load r.1 (some r.2.elements) >>= _) _
  rw [hr.load, ok_bind, if_pos ⟨hin, hr.nelem.symm⟩, hstore]
  refine .ok ⟨hown, ?_, ?_, hr.pos, hr.elemPos, hr.fits⟩
  · show (r.2.nelem + 1).toNat = (es ++ [x]).length
    rw [hnelem, hr.nelem, List.length_append]
    rfl
  · show (r.2.nelem + 1).toNat ≤ r.2.size.toNat
    rw [hnelem]
    exact hlt

end

end UdeBench.Npr.Arrays
