/-
The growable array refines a list, on both allocators.

# The refinement

`Holds` ties the array in memory to cells with a fill mark (`Slots`):
the object at `elements` has room for exactly the cells, and each cell
is read where its index says. Growing is the one step at which the two
allocators differ. Both give an object with the old cells in front and
unwritten ones behind (`grow_ok`), so from there on one proof serves
both, and the elements are the same because they are those of the same
`Slots`.

# The condition

`npr_varray_resize` makes room for `n*2` elements and computes that in
`int`. From 2^30 on the product is negative, and the `size_t` it becomes
is close to 2^64: no allocator answers that request (`resize_oversized`).
Below, every call does what the list does (`exec_ok`).
-/
import UdeBench.Lib.Calls
import UdeBench.Lib.Ints
import UdeBench.Lib.Slots
import UdeBench.Npr.Varray

namespace UdeBench.Npr.VArray

open Objects (Ptr Cell Byte Answers Fault Obj)
open Ints

-- ================================================================ cells

/-- An element none of whose bytes has been written. -/
def blankElem (es : Nat) : List Cell := List.replicate es none

/-- An object with an array of cells. -/
structure CellsOf (es : Nat) (o : Obj) (cells : List (List Cell)) :
    Prop where
  size : o.size = cells.length * es
  cell : ∀ i c, cells[i]? = some c → o.get (i * es) es = c

variable {es : Nat} {o : Obj} {cells : List (List Cell)}

/-- The bytes of a cell that is there. -/
theorem CellsOf.bound (h : CellsOf es o cells) {i : Nat}
    (hi : i < cells.length) : i * es + es ≤ o.size := by
  rw [h.size, ← Nat.succ_mul]
  exact Nat.mul_le_mul_right es hi

/-- A new object. -/
theorem cellsOf_blank (n : Nat) :
    CellsOf es (.blank (n * es)) (List.replicate n (blankElem es)) := by
  refine ⟨by rw [List.length_replicate]; rfl, fun i c hc => ?_⟩
  rw [List.eq_of_mem_replicate (List.mem_of_getElem? hc)]
  unfold Obj.get Obj.blank blankElem
  exact List.eq_replicate_iff.mpr ⟨by simp, by simp⟩

/-- An object with more room: the new cells are unwritten. -/
theorem CellsOf.resized (h : CellsOf es o cells) {n : Nat}
    (hn : cells.length ≤ n) :
    CellsOf es (o.resized (n * es))
      (cells ++ List.replicate (n - cells.length) (blankElem es)) := by
  refine ⟨?_, fun i c hc => ?_⟩
  · rw [List.length_append, List.length_replicate, Nat.add_sub_cancel' hn]
    rfl
  · by_cases hi : i < cells.length
    · rw [List.getElem?_append_left hi] at hc
      rw [Obj.get_resized (h.bound hi)]
      exact h.cell i c hc
    · rw [List.getElem?_append_right (Nat.not_lt.mp hi)] at hc
      rw [List.eq_of_mem_replicate (List.mem_of_getElem? hc)]
      have hle : o.size ≤ i * es := by
        rw [h.size]
        exact Nat.mul_le_mul_right es (Nat.not_lt.mp hi)
      unfold Obj.get Obj.resized blankElem
      refine List.eq_replicate_iff.mpr ⟨by simp, ?_⟩
      intro b hb
      obtain ⟨j, _, rfl⟩ := List.mem_map.mp hb
      exact if_neg (by omega)

/-- A copy of all bytes into a new object is the object with more
room. -/
theorem put_blank {n : Nat} :
    (Obj.blank n).put 0 (o.get 0 o.size) = o.resized n := by
  unfold Obj.put Obj.resized Obj.blank
  congr 1
  funext i
  rw [if_pos (Nat.zero_le i), Nat.sub_zero, Obj.getElem?_get, Nat.zero_add]
  by_cases hi : i < o.size
  · rw [if_pos hi, if_pos hi]
    rfl
  · rw [if_neg hi, if_neg hi]
    rfl

/-- A cell written. -/
theorem CellsOf.set (h : CellsOf es o cells) {i : Nat} {c : List Cell}
    (hi : i < cells.length) (hc : c.length = es) :
    CellsOf es (o.put (i * es) c) (cells.set i c) := by
  refine ⟨by rw [List.length_set]; exact h.size, fun j d hd => ?_⟩
  rcases Nat.lt_trichotomy i j with hij | rfl | hij
  · rw [List.getElem?_set_ne (by omega)] at hd
    rw [Obj.get_put_apart, h.cell j d hd]
    right
    rw [hc, ← Nat.succ_mul]
    exact Nat.mul_le_mul_right es hij
  · rw [List.getElem?_set_self hi] at hd
    rw [← Option.some.inj hd]
    have hself := Obj.get_put_self o (i * es) c
    rwa [hc] at hself
  · rw [List.getElem?_set_ne (by omega)] at hd
    rw [Obj.get_put_apart, h.cell j d hd]
    left
    rw [← Nat.succ_mul]
    exact Nat.mul_le_mul_right es hij

/-- The first cells, one behind the other. Induction on their number. -/
theorem CellsOf.get_flatten (h : CellsOf es o cells) :
    ∀ k, k ≤ cells.length → o.get 0 (k * es) = (cells.take k).flatten := by
  intro k
  induction k with
  | zero =>
      intro _
      rw [Nat.zero_mul]
      rfl
  | succ k ih =>
      intro hk
      have hcell := List.getElem?_eq_getElem hk
      rw [Nat.succ_mul, Obj.get_append, Nat.zero_add, ih (Nat.le_of_lt hk),
        h.cell k _ hcell, List.take_add_one, hcell, List.flatten_append]
      simp

-- ================================================================ arrays

/-- An array in memory, and its cells. -/
structure Holds (es : Nat) (s : Sys) (t : Slots (List Cell)) : Prop where
  obj : ∃ o, s.mem.obj s.arr.elements = some o ∧ CellsOf es o t.cells
  nelem : s.arr.nelem.toNat = t.used
  size : s.arr.size.toNat = t.cells.length
  elemSize : s.arr.elemSize.toNat = es
  bytes : t.cells.length * es < 2 ^ 32

/-- The array of the memory, with other cells for its elements. -/
def Grown (es : Nat) (arr : Varray) (cells : List (List Cell)) (s : Sys) :
    Prop :=
  s.arr = { arr with elements := s.arr.elements }
    ∧ ∃ o, s.mem.obj s.arr.elements = some o ∧ CellsOf es o cells

section
variable (answers : Answers)

/-- Growing, by the allocator. -/
def growElements : Backing → Sys → Varray → Except Fault Sys
  | .malloc => reallocElements answers
  | .pool => moveElements answers

end

variable {answers : Answers} {s : Sys} {t : Slots (List Cell)} {n : Nat}
  {arr : Varray}

theorem toNat_mul_size {a b : Size} (h : a.toNat * b.toNat < 2 ^ 32) :
    (a * b).toNat = a.toNat * b.toNat := by
  rw [BitVec.toNat_mul]
  exact Nat.mod_eq_of_lt (by omega)

/-- The pool answers what it is asked for. -/
theorem mempoolAlloc_yields (answers : Answers) (m : Objects.Mem) {sz : Size}
    (hs : sz.toNat < 2 ^ 32) :
    Yields (Objects.OutOfMemory answers) (mempoolAlloc answers m sz) fun r =>
      Objects.Mem.obj r.1 r.2 = some (.blank sz.toNat) ∧ r.2 = m.length
        ∧ ∀ q, q < m.length → Objects.Mem.obj r.1 q = m.obj q := by
  have hsame : (sz.setWidth 32).toNat = sz.toNat := by
    rw [BitVec.toNat_setWidth]
    exact Nat.mod_eq_of_lt hs
  unfold mempoolAlloc
  rw [hsame]
  exact Objects.malloc_yields _ _ (by unfold Objects.ptrdiffMax; omega)

/-- Both allocators give room for the cells, with the old ones in
front. -/
theorem grow_ok (b : Backing) (arr : Varray) (h : Holds es s t)
    (hn : t.cells.length ≤ n) (hbytes : n * es < 2 ^ 32)
    (helem : arr.elements = s.arr.elements) (hsize : arr.size.toNat = n)
    (hes : arr.elemSize = s.arr.elemSize) :
    Yields (Objects.OutOfMemory answers) (growElements answers b s arr)
      (Grown es arr (t.extend (blankElem es) n).cells) := by
  obtain ⟨o, ho, hcells⟩ := h.obj
  have hnew : (arr.size * arr.elemSize).toNat = n * es := by
    rw [toNat_mul_size] <;> rw [hsize, hes, h.elemSize]
    exact hbytes
  have hmax : n * es ≤ Objects.ptrdiffMax := by
    unfold Objects.ptrdiffMax
    omega
  cases b with
  | malloc =>
      show Yields _ (reallocElements answers s arr) _
      unfold reallocElements
      rw [helem, hnew]
      refine (Objects.realloc_yields hmax ho).bind fun r hr => ?_
      exact ⟨rfl, _, hr.1, hcells.resized hn⟩
  | pool =>
      have hold : (s.arr.size * s.arr.elemSize).toNat = o.size := by
        have hle : t.cells.length * es ≤ n * es := Nat.mul_le_mul_right es hn
        rw [hcells.size, toNat_mul_size] <;> rw [h.size, h.elemSize]
        omega
      show Yields _ (moveElements answers s arr) _
      unfold moveElements
      simp only [hold]
      refine (mempoolAlloc_yields _ _ (by rw [hnew]; exact hbytes)).bind
        fun r hr => ?_
      obtain ⟨hobj, hptr, hrest⟩ := hr
      have hlt := Objects.Mem.obj_lt ho
      have hsrc := (hrest _ hlt).trans ho
      have hroom :
          o.size ≤ (Obj.blank (arr.size * arr.elemSize).toNat).size := by
        show o.size ≤ (arr.size * arr.elemSize).toNat
        rw [hnew, hcells.size]
        exact Nat.mul_le_mul_right es hn
      obtain ⟨m', hcopy, hobj', _⟩ :=
        Objects.memcpy_ok hobj hsrc hroom (Nat.le_refl _)
      simp only [hcopy, bind, Except.bind]
      refine ⟨rfl, _, hobj', ?_⟩
      rw [put_blank, hnew]
      exact hcells.resized hn

-- =============================================================== one call

/-- What the macros do first: more room, if there is none left. -/
def roomWith (grow : Sys → Varray → Except Fault Sys) (s : Sys) :
    Except Fault Sys :=
  if s.arr.size ≤ s.arr.nelem then
    grow s { s.arr with size := s.arr.size * 2 }
  else .ok s

def pushWith (grow : Sys → Varray → Except Fault Sys) (s : Sys)
    (e : List Byte) : Except Fault Sys := do
  let s ← roomWith grow s
  let n := s.arr.nelem
  vaElemSet { s with arr := { s.arr with nelem := n + 1 } } n e

def newelemWith (grow : Sys → Varray → Except Fault Sys) (s : Sys) :
    Except Fault Sys := do
  let s ← roomWith grow s
  .ok { s with arr := { s.arr with nelem := s.arr.nelem + 1 } }

def resizeWith (grow : Sys → Varray → Except Fault Sys) (s : Sys)
    (n : Word) : Except Fault Sys :=
  let arr := { s.arr with nelem := n.signExtend 64 }
  if n.signExtend 64 ≤ arr.size then .ok { s with arr }
  else grow s { arr with size := (n * 2).signExtend 64 }

/-- The macros, by how the array grows. -/
theorem vaPush_eq (s : Sys) (e : List Byte) :
    vaPush answers s e = pushWith (growElements answers .malloc) s e := by
  unfold vaPush pushWith roomWith
  split <;> rfl

theorem vaPushP_eq (s : Sys) (e : List Byte) :
    vaPushP answers s e = pushWith (growElements answers .pool) s e := by
  unfold vaPushP pushWith roomWith
  split <;> rfl

theorem vaNewelem_eq (s : Sys) :
    vaNewelem answers s = newelemWith (growElements answers .malloc) s := by
  unfold vaNewelem newelemWith roomWith
  split <;> rfl

theorem vaNewelemP_eq (s : Sys) :
    vaNewelemP answers s = newelemWith (growElements answers .pool) s := by
  unfold vaNewelemP newelemWith roomWith
  split <;> rfl

/-- The calls, by how the array grows. -/
theorem exec_eq (b : Backing) (s : VaState) (c : VaCall) :
    c.exec answers b s = match c with
      | .push e => do
          let sys ← pushWith (growElements answers b) s.sys e
          .ok { s with sys }
      | .newelem e => do
          let sys ← newelemWith (growElements answers b) s.sys
          let sys ← vaLastSet sys e
          .ok { s with sys }
      | .pop => do
          let (sys, e) ← vaPop s.sys
          .ok ⟨sys, s.popped ++ [e]⟩
      | .resize n => (do
          let sys ← resizeWith (growElements answers b) s.sys n
          .ok { s with sys }) := by
  cases c with
  | push e =>
      cases b
      · exact congrArg (· >>= _) (vaPush_eq s.sys e)
      · exact congrArg (· >>= _) (vaPushP_eq s.sys e)
  | newelem e =>
      cases b
      · exact congrArg (· >>= _) (vaNewelem_eq s.sys)
      · exact congrArg (· >>= _) (vaNewelemP_eq s.sys)
  | pop => rfl
  | resize n => cases b <;> rfl

/-- An array with more cells in memory, and nothing else changed. -/
theorem Holds.grown {s' : Sys} (h : Holds es s t) (hn : t.cells.length ≤ n)
    (hbytes : n * es < 2 ^ 32)
    (hg : Grown es arr (t.extend (blankElem es) n).cells s')
    (hnelem : arr.nelem = s.arr.nelem) (hsize : arr.size.toNat = n)
    (hes : arr.elemSize = s.arr.elemSize) :
    Holds es s' (t.extend (blankElem es) n) := by
  obtain ⟨harr, hobj⟩ := hg
  refine ⟨hobj, ?_, ?_, ?_, ?_⟩
  · rw [harr, Slots.used_extend, ← h.nelem]
    exact congrArg _ hnelem
  · rw [harr, Slots.length_extend hn]
    exact hsize
  · rw [harr, ← h.elemSize]
    exact congrArg _ hes
  · rwa [Slots.length_extend hn]

/-- There is room for one more. -/
theorem room_ok (b : Backing) (h : Holds es s t) (hes : 0 < es)
    (hroom : t.roomForPush * es < 2 ^ 32) :
    Yields (Objects.OutOfMemory answers)
      (roomWith (growElements answers b) s) fun s' =>
      Holds es s' (t.extend (blankElem es) t.roomForPush) := by
  have hiff : s.arr.size ≤ s.arr.nelem ↔ t.cells.length ≤ t.used := by
    rw [BitVec.le_def, h.size, h.nelem]
  unfold roomWith
  by_cases hfull : t.cells.length ≤ t.used
  · have hn : t.roomForPush = t.cells.length * 2 := if_pos hfull
    rw [if_pos (hiff.mpr hfull), hn]
    rw [hn] at hroom
    have hle := Nat.le_mul_of_pos_right (t.cells.length * 2) hes
    have hsize : (s.arr.size * 2).toNat = t.cells.length * 2 := by
      rw [toNat_mul_size] <;> rw [h.size]
      · rfl
      · show t.cells.length * 2 < 2 ^ 32
        omega
    refine (grow_ok b { s.arr with size := s.arr.size * 2 } h
      (by omega) hroom rfl hsize rfl).mono fun s' hs' => ?_
    exact h.grown (by omega) hroom hs' rfl hsize rfl
  · have hn : t.roomForPush = t.cells.length := if_neg hfull
    rw [if_neg (mt hiff.mp hfull), hn, Slots.extend_self]
    exact h

/-- An element written. -/
theorem elemSet_ok {i : Size} {e : List Byte}
    (hobj : s.mem.obj s.arr.elements = some o) (hcells : CellsOf es o cells)
    (hes : s.arr.elemSize.toNat = es) (hi : i.toNat < cells.length)
    (he : e.length = es) :
    ∃ s', vaElemSet s i e = .ok s' ∧ s'.arr = s.arr
      ∧ ∃ o', s'.mem.obj s'.arr.elements = some o'
        ∧ CellsOf es o' (cells.set i.toNat (e.map some)) := by
  have hlen : (e.map some).length = es := (List.length_map _).trans he
  have hbound := hcells.bound hi
  have hoff : s.arr.offset i = ((i.toNat * es : Nat) : Int) := by
    unfold Varray.offset
    rw [hes]
  obtain ⟨m', hm', hobj', _⟩ := Objects.write_ok (s.arr.offset i)
    (e.map some) hobj (by rw [hoff]; omega)
    (by rw [hoff, hlen]; exact_mod_cast hbound)
  unfold vaElemSet
  rw [hm']
  refine ⟨_, rfl, rfl, _, hobj', ?_⟩
  rw [hoff, Int.toNat_natCast]
  exact hcells.set hi hlen

/-- What a call makes of the cells. -/
def VaCall.model (es : Nat) (t : Slots (List Cell)) :
    VaCall → Slots (List Cell)
  | push e => t.push (blankElem es) (e.map some)
  | newelem e => t.push (blankElem es) (e.map some)
  | pop => t.pop
  | resize n => t.resize (blankElem es) n.toNat

/-- What it gives back. -/
def VaCall.out (t : Slots (List Cell)) : VaCall → Option (List Cell)
  | pop => t.cells[t.used - 1]?
  | _ => none

/-- What it does to a list. -/
def VaCall.op : VaCall → Slots.Op (List Cell)
  | push e => .push (e.map some)
  | newelem e => .push (e.map some)
  | pop => .pop
  | resize n => .resize n.toNat

/-- A call a program may make: elements of the array's size, no pop from
an empty array, no negative length, and less than 2^32 bytes. -/
def VaCall.Valid (es : Nat) (t : Slots (List Cell)) : VaCall → Prop
  | push e => e.length = es ∧ t.roomForPush * es < 2 ^ 32
  | newelem e => e.length = es ∧ t.roomForPush * es < 2 ^ 32
  | pop => 0 < t.used
  | resize n => n.toNat < 2 ^ 31 ∧ t.roomFor n.toNat * es < 2 ^ 32

/-- A length whose double is an `int`, where the array must grow to
it. -/
def VaCall.Fits (t : Slots (List Cell)) : VaCall → Prop
  | resize n => n.toNat ≤ t.cells.length ∨ n.toNat < 2 ^ 30
  | _ => True

instance (es : Nat) (t : Slots (List Cell)) :
    (c : VaCall) → Decidable (c.Valid es t)
  | .push _ => inferInstanceAs (Decidable (_ ∧ _))
  | .newelem _ => inferInstanceAs (Decidable (_ ∧ _))
  | .pop => inferInstanceAs (Decidable (_ < _))
  | .resize _ => inferInstanceAs (Decidable (_ ∧ _))

instance (t : Slots (List Cell)) : (c : VaCall) → Decidable (c.Fits t)
  | .push _ => inferInstanceAs (Decidable True)
  | .newelem _ => inferInstanceAs (Decidable True)
  | .pop => inferInstanceAs (Decidable True)
  | .resize _ => inferInstanceAs (Decidable (_ ∨ _))

/-- The model is a list. -/
theorem VaCall.model_step {c : VaCall} (hv : c.Valid es t) :
    Slots.Step t.elems c.op (c.model es t).elems (c.out t) := by
  cases c with
  | push e => exact Slots.step_push
  | newelem e => exact Slots.step_push
  | pop =>
      obtain ⟨a, ha, hstep⟩ := Slots.step_pop hv
      show Slots.Step _ _ _ (t.cells[t.used - 1]?)
      rw [ha]
      exact hstep
  | resize n => exact Slots.step_resize

/-- An element pushed, and what is left to do for it. -/
theorem push_ok (b : Backing) {e : List Byte} (h : Holds es s t)
    (hes : 0 < es) (he : e.length = es)
    (hroom : t.roomForPush * es < 2 ^ 32) :
    Yields (Objects.OutOfMemory answers)
      (roomWith (growElements answers b) s) fun s₁ =>
      ∃ s', vaElemSet { s₁ with arr :=
          { s₁.arr with nelem := s₁.arr.nelem + 1 } } s₁.arr.nelem e = .ok s'
        ∧ Holds es s' (t.push (blankElem es) (e.map some)) := by
  refine (room_ok b h hes hroom).mono fun s₁ h₁ => ?_
  have hlen := Slots.length_extend (x := blankElem es)
    (Slots.le_roomForPush (s := t))
  have hlt := Slots.used_lt_roomForPush (s := t)
  have hle := Nat.le_mul_of_pos_right t.roomForPush hes
  have hused : (s₁.arr.nelem + 1).toNat = t.used + 1 := by
    have h1 : (1 : Size).toNat = 1 := rfl
    rw [BitVec.toNat_add, h₁.nelem, Slots.used_extend, h1]
    omega
  obtain ⟨o, hobj, hcells⟩ := h₁.obj
  obtain ⟨s', hs', harr, hobj'⟩ := elemSet_ok
    (s := { s₁ with arr := { s₁.arr with nelem := s₁.arr.nelem + 1 } })
    (i := s₁.arr.nelem) (e := e) hobj hcells h₁.elemSize
    (by rw [h₁.nelem, Slots.used_extend, hlen]; exact hlt) he
  refine ⟨s', hs', ?_, ?_, ?_, ?_, ?_⟩
  · rw [h₁.nelem, Slots.used_extend] at hobj'
    exact hobj'
  · rw [harr]
    exact hused
  · rw [harr]
    show s₁.arr.size.toNat = _
    rw [h₁.size]
    exact (List.length_set).symm
  · rw [harr]
    exact h₁.elemSize
  · have hbytes := h₁.bytes
    rw [← List.length_set] at hbytes
    exact hbytes

/-- The last element taken. -/
theorem pop_ok (h : Holds es s t) (hpos : 0 < t.used) :
    ∃ s' c, vaPop s = .ok (s', c) ∧ Holds es s' t.pop
      ∧ t.cells[t.used - 1]? = some c := by
  have hlt : t.used - 1 < t.cells.length := by
    have hle := t.used_le
    omega
  have hcell := List.getElem?_eq_getElem hlt
  obtain ⟨o, hobj, hcells⟩ := h.obj
  have hused : (s.arr.nelem - 1).toNat = t.used - 1 := by
    have h1 : (1 : Size).toNat = 1 := rfl
    rw [BitVec.toNat_sub_of_le, h.nelem, h1]
    rw [BitVec.le_def, h.nelem, h1]
    exact hpos
  have hoff : s.arr.offset (s.arr.nelem - 1)
      = (((t.used - 1) * es : Nat) : Int) := by
    unfold Varray.offset
    rw [hused, h.elemSize]
  have hbound := hcells.bound hlt
  have hread : vaElem { s with arr := { s.arr with nelem := s.arr.nelem - 1 } }
      (s.arr.nelem - 1) = .ok t.cells[t.used - 1] := by
    unfold vaElem
    show Objects.read s.mem (some s.arr.elements)
      (s.arr.offset (s.arr.nelem - 1)) s.arr.elemSize.toNat = _
    rw [hoff, h.elemSize, Objects.read_ok hobj (by omega)
      (by exact_mod_cast hbound), Int.toNat_natCast, hcells.cell _ _ hcell]
  unfold vaPop
  simp only [hread, bind, Except.bind]
  exact ⟨_, _, rfl, ⟨⟨o, hobj, hcells⟩, hused, h.size, h.elemSize, h.bytes⟩,
    hcell⟩

/-- Another number of elements. -/
theorem resize_ok (b : Backing) {n : Word} (h : Holds es s t)
    (hn : n.toNat < 2 ^ 31) (hroom : t.roomFor n.toNat * es < 2 ^ 32)
    (hfits : n.toNat ≤ t.cells.length ∨ n.toNat < 2 ^ 30) :
    Yields (Objects.OutOfMemory answers)
      (resizeWith (growElements answers b) s n) fun s' =>
      Holds es s' (t.resize (blankElem es) n.toNat) := by
  have hnelem := toNat_size hn
  have hiff : n.signExtend 64 ≤ s.arr.size ↔ n.toNat ≤ t.cells.length := by
    rw [BitVec.le_def, h.size, hnelem]
  unfold resizeWith
  simp only
  by_cases hle : n.toNat ≤ t.cells.length
  · have hsame : t.roomFor n.toNat = t.cells.length := if_pos hle
    rw [if_pos (hiff.mpr hle)]
    have hcells : (t.resize (blankElem es) n.toNat).cells = t.cells := by
      show (t.extend (blankElem es) (t.roomFor n.toNat)).cells = t.cells
      rw [hsame, Slots.extend_self]
    refine ⟨?_, hnelem, ?_, h.elemSize, ?_⟩ <;> rw [hcells]
    · exact h.obj
    · exact h.size
    · exact h.bytes
  · have hdouble : t.roomFor n.toNat = n.toNat * 2 := if_neg hle
    rw [if_neg (mt hiff.mp hle)]
    have hlt : n.toNat < 2 ^ 30 := hfits.resolve_left hle
    have h2 : (2 : Word).toNat = 2 := rfl
    have hmul : (n * 2).toNat = n.toNat * 2 := by
      rw [toNat_mul] <;> rw [h2]
      omega
    have hsize : ((n * 2).signExtend 64).toNat = t.roomFor n.toNat := by
      rw [toNat_size (by rw [hmul]; omega), hmul, hdouble]
    refine (grow_ok b { s.arr with
      nelem := n.signExtend 64, size := (n * 2).signExtend 64 } h
      Slots.le_roomFor hroom rfl hsize rfl).mono fun s' hs' => ?_
    obtain ⟨harr, hobj⟩ := hs'
    have hlen := Slots.length_extend (x := blankElem es)
      (Slots.le_roomFor (s := t) (n := n.toNat))
    refine ⟨hobj, ?_, ?_, ?_, ?_⟩
    · rw [harr]
      exact hnelem
    · rw [harr]
      exact hsize.trans hlen.symm
    · rw [harr]
      exact h.elemSize
    · show (t.extend (blankElem es) (t.roomFor n.toNat)).cells.length * es < _
      rwa [hlen]

/-- A call does what the model does. -/
theorem exec_ok (b : Backing) {s : VaState} {c : VaCall}
    (h : Holds es s.sys t) (hes : 0 < es) (hv : c.Valid es t)
    (hf : c.Fits t) :
    Yields (Objects.OutOfMemory answers) (c.exec answers b s) fun s' =>
      Holds es s'.sys (c.model es t)
        ∧ s'.popped = s.popped ++ (c.out t).toList := by
  rw [exec_eq]
  cases c with
  | push e =>
      have hpush : Yields (Objects.OutOfMemory answers)
          (pushWith (growElements answers b) s.sys e) fun sys =>
          Holds es sys (t.push (blankElem es) (e.map some)) :=
        (push_ok b h hes hv.1 hv.2).bind fun s₁ hs₁ => by
          obtain ⟨s', hs', hholds⟩ := hs₁
          simp only [hs']
          exact hholds
      exact hpush.bind fun sys hsys => ⟨hsys, (List.append_nil _).symm⟩
  | newelem e =>
      have hnew : Yields (Objects.OutOfMemory answers)
          (newelemWith (growElements answers b) s.sys) fun sys =>
          ∃ s', vaLastSet sys e = .ok s'
            ∧ Holds es s' (t.push (blankElem es) (e.map some)) :=
        (push_ok b h hes hv.1 hv.2).bind fun s₁ hs₁ => by
          obtain ⟨s', hs', hholds⟩ := hs₁
          refine ⟨s', ?_, hholds⟩
          unfold vaLastSet
          simp only [BitVec.add_sub_cancel]
          exact hs'
      refine hnew.bind fun sys hsys => ?_
      obtain ⟨s', hs', hholds⟩ := hsys
      simp only [hs', bind, Except.bind]
      exact ⟨hholds, (List.append_nil _).symm⟩
  | pop =>
      obtain ⟨s', e, hpop, hholds, hcell⟩ := pop_ok h hv
      simp only [hpop, bind, Except.bind]
      refine ⟨hholds, ?_⟩
      show s.popped ++ [e] = s.popped ++ (t.cells[t.used - 1]?).toList
      rw [hcell]
      rfl
  | resize n =>
      exact (resize_ok b h hv.1 hv.2 hf).bind fun sys hsys =>
        ⟨hsys, (List.append_nil _).symm⟩

/-- The double of a length from 2^30 on is no size an allocator
answers. -/
theorem resize_oversized {s : VaState} {n : Word} (h : Holds es s.sys t)
    (hes : 0 < es) (hv : (VaCall.resize n).Valid es t)
    (hf : ¬ (VaCall.resize n).Fits t) :
    (VaCall.resize n).exec answers .malloc s = .error .oversized := by
  obtain ⟨hn, hroom⟩ := hv
  obtain ⟨hgt, hge⟩ := not_or.mp hf
  have hnelem := toNat_size hn
  have hcond : ¬ n.signExtend 64 ≤ s.sys.arr.size := by
    rw [BitVec.le_def, h.size, hnelem]
    exact hgt
  -- only bytes leave room for so many elements
  have hdouble : t.roomFor n.toNat = n.toNat * 2 := if_neg hgt
  rw [hdouble] at hroom
  have hone : es = 1 := by
    by_contra hne
    have hle : n.toNat * 2 * 2 ≤ n.toNat * 2 * es :=
      Nat.mul_le_mul_left _ (by omega)
    omega
  have h2 : (2 : Word).toNat = 2 := rfl
  have hmul : (n * 2).toNat = n.toNat * 2 := by
    rw [toNat_mul] <;> rw [h2]
    omega
  have hsize : ((n * 2).signExtend 64).toNat
      = 2 ^ 64 - 2 ^ 32 + n.toNat * 2 := by
    rw [toNat_size_neg (by rw [hmul]; omega), hmul]
  have hbytes : ((n * 2).signExtend 64 * s.sys.arr.elemSize).toNat
      = 2 ^ 64 - 2 ^ 32 + n.toNat * 2 := by
    rw [BitVec.toNat_mul, h.elemSize, hone, Nat.mul_one, hsize]
    exact Nat.mod_eq_of_lt (by omega)
  obtain ⟨o, hobj, _⟩ := h.obj
  rw [exec_eq]
  unfold resizeWith
  simp only
  rw [if_neg hcond]
  unfold growElements reallocElements Objects.realloc
  simp only [hobj, hbytes]
  rw [Objects.enter_oversized (by
    show Objects.ptrdiffMax < 2 ^ 64 - 2 ^ 32 + n.toNat * 2
    unfold Objects.ptrdiffMax
    omega)]
  rfl

-- ================================================================ a run

/-- The model as a machine of its own. -/
def VaCall.modelExec (es : Nat) (t : Slots (List Cell)) (c : VaCall) :
    Except Empty (Slots (List Cell)) := .ok (c.model es t)

/-- The cells after a run, and what came out on the way. -/
def modelRun (es : Nat) :
    Slots (List Cell) → List VaCall → Slots (List Cell) × List (List Cell)
  | t, [] => (t, [])
  | t, c :: cs =>
      let r := modelRun es (c.model es t) cs
      (r.1, (c.out t).toList ++ r.2)

/-- The model's run is one of the list. -/
theorem modelRun_steps :
    ∀ (cs : List VaCall) {t : Slots (List Cell)},
      Calls.Along (VaCall.modelExec es) (fun t c => c.Valid es t) t cs →
      Slots.Steps t.elems (cs.map VaCall.op) (modelRun es t cs).1.elems
        (modelRun es t cs).2 := by
  intro cs
  induction cs with
  | nil => exact fun _ => .nil _
  | cons c cs ih =>
      intro t h
      exact .cons (VaCall.model_step h.1) (ih (h.rest rfl))

/-- The code's run is the model's, as long as every length fits. -/
theorem run_ok (b : Backing) (hes : 0 < es) :
    ∀ (cs : List VaCall) {s : VaState} {t : Slots (List Cell)},
      Holds es s.sys t →
      Calls.Along (VaCall.modelExec es) (fun t c => c.Valid es t) t cs →
      Calls.Along (VaCall.modelExec es) (fun t c => c.Fits t) t cs →
      Yields (Objects.OutOfMemory answers)
        (cs.foldlM (VaCall.exec answers b) s) fun s' =>
        Holds es s'.sys (modelRun es t cs).1
          ∧ s'.popped = s.popped ++ (modelRun es t cs).2 := by
  intro cs
  induction cs with
  | nil =>
      intro s t h _ _
      exact ⟨h, (List.append_nil _).symm⟩
  | cons c cs ih =>
      intro s t h hv hf
      rw [List.foldlM_cons]
      refine (exec_ok b h hes hv.1 hf.1).bind fun s₁ hs₁ => ?_
      refine (ih hs₁.1 (hv.rest rfl) (hf.rest rfl)).mono fun s' hs' => ?_
      refine ⟨hs'.1, ?_⟩
      rw [hs'.2, hs₁.2, List.append_assoc]
      rfl

/-- An allocator that answers every request. -/
def answersAll : Answers := fun _ _ => true

/-- It is never out of memory. -/
theorem not_outOfMemory (e : Fault) :
    ¬ Objects.OutOfMemory answersAll e := by
  rintro ⟨_, _, _, hno⟩
  cases hno

/-- Where the code's run is not stopped, every length fits. -/
theorem fits_of_run (hes : 0 < es) :
    ∀ (cs : List VaCall) {s : VaState} {t : Slots (List Cell)},
      Holds es s.sys t →
      Calls.Along (VaCall.modelExec es) (fun t c => c.Valid es t) t cs →
      (∃ s', cs.foldlM (VaCall.exec answersAll .malloc) s = .ok s') →
      Calls.Along (VaCall.modelExec es) (fun t c => c.Fits t) t cs := by
  intro cs
  induction cs with
  | nil => exact fun _ _ _ => trivial
  | cons c cs ih =>
      intro s t h hv hrun
      obtain ⟨s', hrun⟩ := hrun
      rw [List.foldlM_cons] at hrun
      obtain ⟨s₁, hexec, hrun⟩ := bind_eq_ok hrun
      have hf : c.Fits t := by
        by_contra hf
        cases c with
        | resize n =>
            rw [resize_oversized h hes hv.1 hf] at hexec
            cases hexec
        | _ => exact hf trivial
      have hs₁ := (exec_ok .malloc h hes hv.1 hf).of_ok hexec
      exact ⟨hf, ih hs₁.1 (hv.rest rfl) ⟨s', hrun⟩⟩

/-- What a program finds in an array: these elements, one by one and in
a copy. What is closed was allocated by `malloc`. -/
structure Lists (answers : Answers) (b : Backing) (s : Sys)
    (l : List (List Cell)) : Prop where
  nelem : s.arr.nelem.toNat = l.length
  room : s.arr.nelem.toNat ≤ s.arr.size.toNat
  elem : ∀ (i : Size) (c : List Cell), l[i.toNat]? = some c →
    vaElem s i = .ok c
  copy : Yields (Objects.OutOfMemory answers) (varrayCopy answers s)
    fun r => r.1.mem.Contains r.2 l.flatten
  mallocCopy : Yields (Objects.OutOfMemory answers)
    (varrayMallocCopy answers s) fun r => r.1.mem.Contains r.2 l.flatten
  close : b = .malloc → Yields (Objects.OutOfMemory answers)
    (varrayClose answers s) fun r => r.1.Contains r.2 l.flatten
  mallocClose : b = .malloc → Yields (Objects.OutOfMemory answers)
    (varrayMallocClose answers s) fun r => r.1.Contains r.2 l.flatten

/-- A copy of an array: its elements in an object of their own. -/
def Copied (s : Sys) (l : List (List Cell)) (r : Sys × Ptr) : Prop :=
  r.1.mem.Contains r.2 l.flatten ∧ r.1.arr = s.arr
    ∧ r.2 ≠ s.arr.elements
    ∧ ∃ o, r.1.mem.obj s.arr.elements = some o

/-- Either copy, by the memory it gets. -/
theorem copy_ok (h : Holds es s t) {x : Except Fault (Objects.Mem × Ptr)}
    (hx : Yields (Objects.OutOfMemory answers) x fun r =>
      Objects.Mem.obj r.1 r.2
          = some (.blank (s.arr.nelem * s.arr.elemSize).toNat)
        ∧ r.2 = s.mem.length
        ∧ ∀ q, q < s.mem.length → Objects.Mem.obj r.1 q = s.mem.obj q) :
    Yields (Objects.OutOfMemory answers) (do
      let (m, ret) ← x
      let m ← Objects.memcpy m (some ret) 0 (some s.arr.elements) 0
        (s.arr.nelem * s.arr.elemSize).toNat
      .ok ({ s with mem := m }, ret)) (Copied s t.elems) := by
  obtain ⟨o, hobj, hcells⟩ := h.obj
  have hle : t.used * es ≤ t.cells.length * es :=
    Nat.mul_le_mul_right es t.used_le
  have hbytes := h.bytes
  have hsz : (s.arr.nelem * s.arr.elemSize).toNat = t.used * es := by
    rw [toNat_mul_size] <;> rw [h.nelem, h.elemSize]
    omega
  rw [hsz] at hx ⊢
  refine hx.bind fun r hr => ?_
  obtain ⟨hnew, hptr, hrest⟩ := hr
  have hlt := Objects.Mem.obj_lt hobj
  have hsrc := (hrest _ hlt).trans hobj
  obtain ⟨m', hm', hcopy, hother⟩ := Objects.memcpy_contains hnew hsrc
    (by rw [hcells.size]; exact hle)
  have hne : s.arr.elements ≠ r.2 := by
    rw [hptr]
    exact Nat.ne_of_lt hlt
  simp only [hm', bind, Except.bind]
  rw [hcells.get_flatten _ t.used_le] at hcopy
  exact ⟨hcopy, rfl, hne.symm, o, (hother _ hne).trans hsrc⟩

/-- Closing an array after a copy. -/
theorem close_ok {l : List (List Cell)} {x : Except Fault (Sys × Ptr)}
    (hx : Yields (Objects.OutOfMemory answers) x (Copied s l)) :
    Yields (Objects.OutOfMemory answers) (do
      let (s, ret) ← x
      let m ← Objects.free s.mem s.arr.elements
      .ok (m, ret)) fun r => r.1.Contains r.2 l.flatten := by
  refine hx.bind fun r hr => ?_
  obtain ⟨hcopy, harr, hne, o, ho⟩ := hr
  rw [← harr] at ho hne
  simp only [Objects.free_ok ho, bind, Except.bind]
  exact hcopy.congr (Objects.Mem.obj_set_other hne _)

/-- What holds of the model is found in the array. -/
theorem Holds.lists (h : Holds es s t) (b : Backing) :
    Lists answers b s t.elems := by
  have hbytes : (s.arr.nelem * s.arr.elemSize).toNat < 2 ^ 32 := by
    have hle : t.used * es ≤ t.cells.length * es :=
      Nat.mul_le_mul_right es t.used_le
    have hlt := Nat.lt_of_le_of_lt hle h.bytes
    rw [toNat_mul_size] <;> rw [h.nelem, h.elemSize] <;> exact hlt
  have hpool := copy_ok h (mempoolAlloc_yields answers s.mem hbytes)
  have hmalloc := copy_ok h (Objects.malloc_yields answers s.mem
    (by unfold Objects.ptrdiffMax; omega))
  refine ⟨?_, ?_, ?_, hpool.mono fun r hr => hr.1,
    hmalloc.mono fun r hr => hr.1, fun _ => close_ok hpool,
    fun _ => close_ok hmalloc⟩
  · rw [h.nelem, Slots.length_elems]
  · rw [h.nelem, h.size]
    exact t.used_le
  · intro i c hc
    obtain ⟨hused, hcell⟩ : i.toNat < t.used ∧ t.cells[i.toNat]? = some c := by
      unfold Slots.elems at hc
      rw [List.getElem?_take] at hc
      split at hc
      · exact ⟨‹_›, hc⟩
      · cases hc
    have hi : i.toNat < t.cells.length := Nat.lt_of_lt_of_le hused t.used_le
    obtain ⟨o, hobj, hcells⟩ := h.obj
    have hbound := hcells.bound hi
    have hoff : s.arr.offset i = ((i.toNat * es : Nat) : Int) := by
      unfold Varray.offset
      rw [h.elemSize]
    unfold vaElem
    rw [hoff, h.elemSize, Objects.read_ok hobj (by omega)
      (by exact_mod_cast hbound), Int.toNat_natCast, hcells.cell _ _ hcell]

/-- A new array. -/
theorem vaInit_ok (answers : Answers) (b : Backing) {n es : Size}
    (hn : 0 < n.toNat) (hbytes : n.toNat * es.toNat < 2 ^ 32) :
    Yields (Objects.OutOfMemory answers) (vaInit answers b n es) fun s =>
      Holds es.toNat s.sys (Slots.new (blankElem es.toNat) n.toNat hn)
        ∧ s.popped = [] := by
  have hsz : (es * n).toNat = n.toNat * es.toNat := by
    rw [BitVec.mul_comm]
    exact toNat_mul_size hbytes
  have hholds (r : Objects.Mem × Ptr)
      (hr : r.1.obj r.2 = some (.blank (n.toNat * es.toNat))) :
      Holds es.toNat ⟨r.1, ⟨0, n, es, r.2⟩⟩
        (Slots.new (blankElem es.toNat) n.toNat hn) := by
    refine ⟨⟨_, hr, cellsOf_blank n.toNat⟩, rfl, ?_, rfl, ?_⟩
    · exact List.length_replicate.symm
    · show (List.replicate n.toNat _).length * es.toNat < 2 ^ 32
      rwa [List.length_replicate]
  cases b with
  | malloc =>
      show Yields _ (varrayInit answers [] n es >>= _) _
      unfold varrayInit
      simp only [hsz]
      have halloc := Objects.malloc_yields answers []
        (show n.toNat * es.toNat ≤ _ by unfold Objects.ptrdiffMax; omega)
      exact (halloc.bind fun r hr => Yields.ok (hholds r hr.1)).bind
        fun sys hsys => ⟨hsys, rfl⟩
  | pool =>
      show Yields _ (varrayInitPool answers [] n es >>= _) _
      unfold varrayInitPool
      have halloc := mempoolAlloc_yields answers []
        (show (es * n).toNat < _ by rw [hsz]; exact hbytes)
      rw [hsz] at halloc
      exact (halloc.bind fun r hr => Yields.ok (hholds r hr.1)).bind
        fun sys hsys => ⟨hsys, rfl⟩

-- =========================================================== any run

/-- The array with room for `n` elements does what the list does in any
run, on both allocators alike, exactly if no length that it must grow to
is 2^30 or more. -/
theorem varray_refines_iff (n es : Size) (hn : 0 < n.toNat)
    (hes : 0 < es.toNat) (hbytes : n.toNat * es.toNat < 2 ^ 32)
    {cs : List VaCall}
    (hcs : Calls.Along (VaCall.modelExec es.toNat)
      (fun t c => c.Valid es.toNat t)
      (Slots.new (blankElem es.toNat) n.toNat hn) cs) :
    (∃ l outs, Slots.Steps [] (cs.map VaCall.op) l outs
      ∧ ∀ answers b, Yields (Objects.OutOfMemory answers)
          (vaRun answers b n es cs) fun s =>
          s.popped = outs ∧ Lists answers b s.sys l)
      ↔ Calls.Along (VaCall.modelExec es.toNat) (fun t c => c.Fits t)
        (Slots.new (blankElem es.toNat) n.toNat hn) cs := by
  constructor
  · rintro ⟨l, outs, _, hrun⟩
    have hrun := hrun answersAll .malloc
    have hinit := vaInit_ok answersAll .malloc hn hbytes
    unfold vaRun at hrun
    cases hs : vaInit answersAll .malloc n es with
    | error e => exact (not_outOfMemory e (hinit.of_error hs)).elim
    | ok s =>
        rw [hs] at hrun
        have hholds := (hinit.of_ok hs).1
        refine fits_of_run hes cs hholds hcs ?_
        cases hend : cs.foldlM (VaCall.exec answersAll .malloc) s with
        | error e => exact (not_outOfMemory e (hrun.of_error hend)).elim
        | ok s' => exact ⟨s', rfl⟩
  · intro hf
    refine ⟨_, _, modelRun_steps cs hcs, fun answers b => ?_⟩
    unfold vaRun
    refine (vaInit_ok answers b hn hbytes).bind fun s hs => ?_
    refine (run_ok b hes cs hs.1 hcs hf).mono fun s' hs' => ?_
    refine ⟨?_, hs'.1.lists b⟩
    rw [hs'.2, hs.2, List.nil_append]

-- ============================================================= small runs

/-- Elements of two bytes, through two growths, a pop, and resizing both
ways. -/
theorem varray_refines_pairs :
    ∃ l outs, Slots.Steps [] ([.push [1, 2], .newelem [3, 4], .push [5, 6],
        .pop, .resize 1, .resize 5].map VaCall.op) l outs
      ∧ ∀ answers b, Yields (Objects.OutOfMemory answers)
          (vaRun answers b 1 2 [.push [1, 2], .newelem [3, 4], .push [5, 6],
            .pop, .resize 1, .resize 5]) fun s =>
          s.popped = outs ∧ Lists answers b s.sys l :=
  (varray_refines_iff 1 2 (by decide) (by decide) (by decide)
    (by decide)).mpr (by decide)

/-- An array of bytes that must grow to 2^30 of them: what the allocator
is asked for is almost all of the address space. -/
theorem not_refines_bytes :
    Calls.Along (VaCall.modelExec 1) (fun t c => c.Valid 1 t)
        (Slots.new (blankElem 1) 1 (by decide)) [.resize 0x40000000]
      ∧ ¬ ∃ l outs, Slots.Steps [] ([.resize 0x40000000].map VaCall.op) l outs
        ∧ ∀ answers b, Yields (Objects.OutOfMemory answers)
            (vaRun answers b 1 1 [.resize 0x40000000]) fun s =>
            s.popped = outs ∧ Lists answers b s.sys l := by
  refine ⟨by decide, ?_⟩
  rintro ⟨l, outs, _, hrun⟩
  have herror : vaRun answersAll .malloc 1 1 [.resize 0x40000000]
      = .error .oversized := rfl
  exact not_outOfMemory _ ((hrun answersAll .malloc).of_error herror)

end UdeBench.Npr.VArray
