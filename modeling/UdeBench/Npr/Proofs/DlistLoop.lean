/-
A loop over a doubly linked list that changes while it runs.

`Numbered` is the list as its program sees it: values, named by the
numbers of their pushes. There a loop goes from an element to the one that
is behind it when its body is done, and what the body has removed before
is not visited; a body that removes the element the loop is at has no
meaning (`behind`). `Shows` is what the list in memory has in common with
it: the numbers stand for different elements, and `Inv` holds.

The last part says what becomes of a loop whose body removes the element
the loop is at. Its `next` is then the allocator's, so the loop goes on
through the allocator's free elements, to the null at their end.
-/
import UdeBench.Npr.DlistLoop
import UdeBench.Npr.Proofs.Dlist

namespace UdeBench.Npr.LinkedList

open Spans ByteMem Calls
open Blocks (Fault Sys Accessible)
open ChunkAlloc (Allocator elemSpan)
open Chains (Threaded threaded_nil threaded_cons)

-- ===================================================== the list of numbers

/-- A list, its elements named by the numbers of their pushes. -/
structure Numbered where
  live : List (Nat × Addr)
  pushed : Nat

/-- One call: what is removed must be there. -/
def ListCall.model (a : Numbered) : ListCall → Option Numbered
  | push v => some ⟨a.live ++ [(a.pushed, v)], a.pushed + 1⟩
  | remove k =>
      if k ∈ a.live.map Prod.fst then
        some { a with live := a.live.eraseP fun y => y.1 = k }
      else none

/-- What is behind an element, if that is there. -/
def behind (k : Nat) : List (Nat × Addr) → Option (List (Nat × Addr))
  | [] => none
  | y :: l => if y.1 = k then some l else behind k l

/-- A loop, where `rest` is what it is yet to visit. -/
def walkFrom (body : Body) : Nat → Numbered → List Addr →
    List (Nat × Addr) → Option (Numbered × List Addr)
  | 0, _, _, _ => none
  | _ + 1, a, visited, [] => some (a, visited)
  | fuel + 1, a, visited, (k, v) :: _ => do
      let a ← (body visited v).foldlM ListCall.model a
      let rest ← behind k a.live
      walkFrom body fuel a (visited ++ [v]) rest

/-- One call of a program, and what it returns. -/
def LoopCall.model (a : Numbered) :
    LoopCall → Option (Numbered × List Addr)
  | call c => do
      let a ← c.model a
      some (a, [])
  | forEach body fuel => walkFrom body fuel a [] a.live

/-- A run of calls, and what they return. -/
def modelRunFrom : Numbered → List LoopCall →
    Option (Numbered × List (List Addr))
  | a, [] => some (a, [])
  | a, c :: cs => do
      let (a, r) ← c.model a
      let (a, rs) ← modelRunFrom a cs
      some (a, r :: rs)

/-- A run of calls on an empty list. -/
def modelRun (cs : List LoopCall) :
    Option (Numbered × List (List Addr)) :=
  modelRunFrom ⟨[], 0⟩ cs

/-- What is behind an element comes behind it. -/
theorem behind_split {k : Nat} : ∀ {l rest : List (Nat × Addr)},
    behind k l = some rest → ∃ front v, l = front ++ (k, v) :: rest := by
  intro l
  induction l with
  | nil =>
      intro rest h
      cases h
  | cons y l ih =>
      intro rest h
      unfold behind at h
      by_cases hk : y.1 = k
      · rw [if_pos hk] at h
        obtain rfl := Option.some.inj h
        exact ⟨[], y.2, by rw [← hk]; rfl⟩
      · rw [if_neg hk] at h
        obtain ⟨front, v, rfl⟩ := ih h
        exact ⟨y :: front, v, rfl⟩

-- ============================================================ the elements

variable {place : Blocks.Placement} {s : DlistState}
  {extra free chunks : List Addr} {e : Addr}

/-- The successor of a node. -/
theorem next_of_linked {m : ByteMem} {front back : List Addr} {t : Addr}
    (hl : DList.Linked links m (front ++ e :: (back ++ [t]))) :
    DList.next links m e = back.headD t := by
  have hlinks := (List.isChain_append.mp hl.links).2.1
  cases back with
  | nil => exact (List.isChain_cons_cons.mp hlinks).1.1
  | cons b back => exact (List.isChain_cons_cons.mp hlinks).1.1

theorem Inv.next_head (h : Inv s extra free chunks) :
    DList.next links s.sys.mem s.list.head = s.elems.headD s.list.tail := by
  have hlinked : DList.Linked links s.sys.mem
      ([] ++ s.list.head :: (s.elems ++ [s.list.tail])) := h.linked
  exact next_of_linked hlinked

theorem Inv.next_elem (h : Inv s extra free chunks) {front back : List Addr}
    (hs : s.elems = front ++ e :: back) :
    DList.next links s.sys.mem e = back.headD s.list.tail := by
  have hlinked := h.linked
  unfold nodes at hlinked
  rw [hs, List.append_assoc, List.cons_append, ← List.cons_append] at hlinked
  exact next_of_linked hlinked

/-- No element of the allocator is the list's end. -/
theorem Inv.ne_tail (h : Inv s extra free chunks)
    (he : e ∈ (extra ++ s.elems) ++ free) : e ≠ s.list.tail := by
  intro heq
  have hapart := h.alloc.elem_taken sizes he
  have htail := toNat_tail h.space
  have h24 : sizeofElem.toNat = 24 := rfl
  rw [h.taken, heq] at hapart
  unfold Apart elemSpan sizeofDlist at hapart
  simp only at hapart
  omega

/-- The fields of an element can be read. -/
theorem Inv.field_ok (h : Inv s extra free chunks)
    (he : e ∈ (extra ++ s.elems) ++ free) {off : Addr}
    (hoff : off.toNat + 8 ≤ 24) (halign : off.toNat % 8 = 0) :
    field s.sys e off = .ok (s.sys.mem.load64 (e + off)) := by
  obtain ⟨c, hc, _, _, _, hlo, hhi⟩ := h.alloc.elem sizes he
  have hbound := h.alloc.elem_space sizes he
  have h24 : sizeofElem.toNat = 24 := rfl
  have htoNat : (e + off).toNat = e.toNat + off.toNat := by
    rw [BitVec.toNat_add]
    exact Nat.mod_eq_of_lt (by omega)
  have hacc : Accessible s.sys (e + off) := by
    refine ⟨?_, _, h.alloc.data_mem hc, ?_, ?_⟩
    · have haligned := (h.alloc.accessible sizes he).1
      omega
    · show (s.sys.mem.load64 c).toNat ≤ (e + off).toNat
      omega
    · show (e + off).toNat + 8
        ≤ (s.sys.mem.load64 c).toNat + (ChunkAlloc.dataSize sizeofElem 8).toNat
      omega
  unfold field
  rw [if_neg (h.alloc.elem_ne_zero sizes he)]
  exact Blocks.load_ok hacc

-- ============================================================= the numbers

/-- The element a number stands for. -/
def ptrAt (ptrs : List Addr) (k : Nat) : Addr := ptrs.getD k 0

/-- The elements with their values. -/
def atPtrs (ptrs : List Addr) (live : List (Nat × Addr)) :
    List (Addr × Addr) :=
  live.map fun y => (ptrAt ptrs y.1, y.2)

/-- Numbers stand for the same elements after more pushes. -/
theorem ptrAt_append {ptrs : List Addr} {k : Nat} (hk : k < ptrs.length)
    (l : List Addr) : ptrAt (ptrs ++ l) k = ptrAt ptrs k := by
  unfold ptrAt
  rw [List.getD_eq_getElem?_getD, List.getD_eq_getElem?_getD,
    List.getElem?_append_left hk]

/-- The number of the last push. -/
theorem ptrAt_last (ptrs : List Addr) (e : Addr) :
    ptrAt (ptrs ++ [e]) ptrs.length = e := by
  unfold ptrAt
  simp

/-- What is removed by its element is removed by its number. -/
theorem atPtrs_eraseP {ptrs : List Addr} {k : Nat} :
    ∀ {live : List (Nat × Addr)},
      (∀ y ∈ live, ptrAt ptrs y.1 = ptrAt ptrs k → y.1 = k) →
      (atPtrs ptrs live).eraseP (fun x => x.1 = ptrAt ptrs k)
        = atPtrs ptrs (live.eraseP fun y => y.1 = k) := by
  intro live
  induction live with
  | nil => exact fun _ => rfl
  | cons y live ih =>
      intro hinj
      unfold atPtrs
      rw [List.map_cons]
      by_cases hk : y.1 = k
      · rw [List.eraseP_cons_of_pos (by simp [hk]),
          List.eraseP_cons_of_pos (by simp [hk])]
      · have hne : ¬ ptrAt ptrs y.1 = ptrAt ptrs k := fun heq =>
          hk (hinj y List.mem_cons_self heq)
        rw [List.eraseP_cons_of_neg (by simpa using hne),
          List.eraseP_cons_of_neg (by simpa using hk), List.map_cons]
        exact congrArg _ (ih fun z hz => hinj z (List.mem_cons_of_mem _ hz))

/-- A list in memory shows a list of numbers. -/
structure Shows (s : Client) (a : Numbered) : Prop where
  inv : ∃ free chunks,
    Inv ⟨s.sys, s.list, atPtrs s.ptrs a.live⟩ [] free chunks
  pushed : s.ptrs.length = a.pushed
  known : ∀ y ∈ a.live, y.1 < s.ptrs.length

variable {c : Client} {a : Numbered}

theorem elems_atPtrs (c : Client) (a : Numbered) :
    DlistState.elems ⟨c.sys, c.list, atPtrs c.ptrs a.live⟩
      = a.live.map fun y => ptrAt c.ptrs y.1 := by
  unfold DlistState.elems atPtrs
  rw [List.map_map]
  rfl

theorem mem_elems {y : Nat × Addr} (hy : y ∈ a.live) :
    ptrAt c.ptrs y.1
      ∈ DlistState.elems ⟨c.sys, c.list, atPtrs c.ptrs a.live⟩ := by
  rw [elems_atPtrs]
  exact List.mem_map_of_mem hy

/-- Different numbers stand for different elements. -/
theorem Shows.inj (h : Shows c a) {y z : Nat × Addr} (hy : y ∈ a.live)
    (hz : z ∈ a.live) (heq : ptrAt c.ptrs y.1 = ptrAt c.ptrs z.1) :
    y.1 = z.1 := by
  obtain ⟨free, chunks, hinv⟩ := h.inv
  have hnodup := hinv.nodup
  rw [elems_atPtrs] at hnodup
  rw [List.inj_on_of_nodup_map hnodup hy hz heq]

theorem Client.ptr_ok {k : Nat} (hk : k < c.ptrs.length) :
    c.ptr k = .ok (ptrAt c.ptrs k) := by
  unfold Client.ptr ptrAt
  rw [List.getD_eq_getElem?_getD, List.getElem?_eq_getElem hk]
  rfl

-- =================================================================== calls

/-- What a call leaves: the list shows what it should, and the numbers
there were stand for what they did. -/
structure Kept (c : Client) (a : Numbered) (c' : Client) : Prop where
  list : Shows c' a
  ptrs : c.ptrs <+: c'.ptrs

/-- A push. -/
theorem Shows.push (place : Blocks.Placement) (h : Shows c a) (v : Addr) :
    Yields Blocks.OutOfMemory ((ListCall.push v).exec place c)
      (Kept c ⟨a.live ++ [(a.pushed, v)], a.pushed + 1⟩) := by
  obtain ⟨free, chunks, hinv⟩ := h.inv
  unfold ListCall.exec dlistPushBack
  simp only [bind_assoc]
  refine (take_yields place hinv).bind fun r hr => ?_
  obtain ⟨_, _, free', chunks', hinv'⟩ := hr
  have hlive : atPtrs (c.ptrs ++ [r.2.2]) (a.live ++ [(a.pushed, v)])
      = atPtrs c.ptrs a.live ++ [(r.2.2, v)] := by
    have hold : atPtrs (c.ptrs ++ [r.2.2]) a.live = atPtrs c.ptrs a.live :=
      List.map_congr_left fun y hy => by
        rw [ptrAt_append (h.known y hy)]
    have hnew : ptrAt (c.ptrs ++ [r.2.2]) a.pushed = r.2.2 := by
      rw [← h.pushed, ptrAt_last]
    show List.map _ _ = _
    rw [List.map_append]
    exact congrArg₂ _ hold (by rw [List.map_singleton, hnew])
  refine ⟨⟨⟨free', chunks', ?_⟩, ?_, ?_⟩, List.prefix_append _ _⟩
  · show Inv ⟨_, _, atPtrs (c.ptrs ++ [r.2.2]) (a.live ++ [(a.pushed, v)])⟩
      [] free' chunks'
    rw [hlive]
    exact link_ok hinv' v
  · show (c.ptrs ++ [r.2.2]).length = a.pushed + 1
    rw [List.length_append, h.pushed]
    rfl
  · intro y hy
    show y.1 < (c.ptrs ++ [r.2.2]).length
    rw [List.length_append]
    rcases List.mem_append.mp hy with hy | hy
    · exact Nat.lt_add_right _ (h.known y hy)
    · obtain rfl := List.mem_singleton.mp hy
      show a.pushed < _
      rw [← h.pushed]
      exact Nat.lt_succ_self _

/-- What a removal leaves: the element is at the top of the allocator's
free elements. -/
theorem Shows.remove_ok (place : Blocks.Placement) (h : Shows c a)
    {y : Nat × Addr} (hy : y ∈ a.live) :
    ∃ c' free chunks, (ListCall.remove y.1).exec place c = .ok c'
      ∧ c'.ptrs = c.ptrs
      ∧ Inv ⟨c'.sys, c'.list,
          atPtrs c'.ptrs (a.live.eraseP fun z => z.1 = y.1)⟩ []
        (ptrAt c.ptrs y.1 :: free) chunks := by
  obtain ⟨free, chunks, hinv⟩ := h.inv
  have hmem := mem_elems (c := c) hy
  obtain ⟨m', a', hfree, _, hinv'⟩ := giveBack_ok (unlink_ok hinv hmem)
  have herase : (atPtrs c.ptrs a.live).eraseP
      (fun x => x.1 = ptrAt c.ptrs y.1)
      = atPtrs c.ptrs (a.live.eraseP fun z => z.1 = y.1) :=
    atPtrs_eraseP fun z hz heq => h.inj hz hy heq
  refine ⟨⟨{ c.sys with mem := m' }, { c.list with a := a' }, c.ptrs⟩, free,
    chunks, ?_, rfl, ?_⟩
  · show (c.ptr y.1 >>= _) = _
    rw [Client.ptr_ok (h.known y hy), ok_bind]
    unfold dlistRemove
    simp only [bind_assoc]
    rw [hfree, ok_bind]
    rfl
  · show Inv ⟨_, _, atPtrs c.ptrs _⟩ _ _ _
    rw [← herase]
    exact hinv'

/-- The list after a removal. -/
theorem Shows.removed (h : Shows c a) {c' : Client} {k : Nat}
    {free chunks : List Addr} (hptrs : c'.ptrs = c.ptrs)
    (hinv : Inv ⟨c'.sys, c'.list,
      atPtrs c'.ptrs (a.live.eraseP fun z => z.1 = k)⟩ [] free chunks) :
    Shows c' { a with live := a.live.eraseP fun z => z.1 = k } := by
  refine ⟨⟨_, _, hinv⟩, ?_, fun z hz => ?_⟩
  · rw [hptrs]
    exact h.pushed
  · rw [hptrs]
    exact h.known z (List.mem_of_mem_eraseP hz)

/-- One call. -/
theorem Shows.call (place : Blocks.Placement) (h : Shows c a)
    {call : ListCall} {a' : Numbered} (hcall : call.model a = some a') :
    Yields Blocks.OutOfMemory (call.exec place c) (Kept c a') := by
  cases call with
  | push v =>
      obtain rfl := Option.some.inj hcall
      exact h.push place v
  | remove k =>
      simp only [ListCall.model] at hcall
      by_cases hk : k ∈ a.live.map Prod.fst
      · rw [if_pos hk] at hcall
        obtain rfl := Option.some.inj hcall
        obtain ⟨y, hy, rfl⟩ := List.mem_map.mp hk
        obtain ⟨c', free, chunks, hexec, hptrs, hinv⟩ := h.remove_ok place hy
        rw [hexec]
        exact ⟨h.removed hptrs hinv, hptrs ▸ List.prefix_rfl⟩
      · rw [if_neg hk] at hcall
        cases hcall

/-- The calls of a body. Induction on them. -/
theorem Shows.calls (place : Blocks.Placement) :
    ∀ (calls : List ListCall) {c : Client} {a a' : Numbered}, Shows c a →
      calls.foldlM ListCall.model a = some a' →
      Yields Blocks.OutOfMemory (calls.foldlM (ListCall.exec place) c)
        (Kept c a') := by
  intro calls
  induction calls with
  | nil =>
      intro c a a' h hcalls
      obtain rfl := Option.some.inj hcalls
      exact ⟨h, List.prefix_rfl⟩
  | cons call calls ih =>
      intro c a a' h hcalls
      rw [List.foldlM_cons] at hcalls ⊢
      obtain ⟨a₁, hcall, hcalls⟩ := Option.bind_eq_some_iff.mp hcalls
      refine (h.call place hcall).bind fun c₁ h₁ => ?_
      refine (ih h₁.list hcalls).mono fun c' h' => ?_
      exact ⟨h'.list, h₁.ptrs.trans h'.ptrs⟩

-- =================================================================== loops

/-- Where a loop is that is yet to visit `rest`. -/
def cursor (c : Client) (rest : List (Nat × Addr)) : Addr :=
  (rest.map fun y => ptrAt c.ptrs y.1).headD c.list.tail

/-- Where a loop begins. -/
theorem Shows.head (h : Shows c a) :
    DList.next links c.sys.mem c.list.head = cursor c a.live := by
  obtain ⟨free, chunks, hinv⟩ := h.inv
  have hnext := hinv.next_head
  rw [elems_atPtrs] at hnext
  exact hnext

/-- The value at an element, and what is behind it. -/
theorem Shows.fields (h : Shows c a) {front rest : List (Nat × Addr)}
    {y : Nat × Addr} (hlive : a.live = front ++ y :: rest) :
    ptrAt c.ptrs y.1 ≠ c.list.tail
      ∧ field c.sys (ptrAt c.ptrs y.1) 16 = .ok y.2
      ∧ field c.sys (ptrAt c.ptrs y.1) links = .ok (cursor c rest) := by
  obtain ⟨free, chunks, hinv⟩ := h.inv
  have hy : y ∈ a.live := by
    rw [hlive]
    simp
  have hmem := mem_elems (c := c) hy
  have hmem' : ptrAt c.ptrs y.1 ∈ ([] ++ DlistState.elems
      ⟨c.sys, c.list, atPtrs c.ptrs a.live⟩) ++ free :=
    List.mem_append_left _ hmem
  have hsplit := elems_atPtrs c a
  rw [hlive, List.map_append, List.map_cons] at hsplit
  refine ⟨hinv.ne_tail hmem', ?_, ?_⟩
  · rw [hinv.field_ok hmem' (by decide) (by decide)]
    exact congrArg _ (hinv.vals (ptrAt c.ptrs y.1, y.2)
      (List.mem_map_of_mem (f := fun y => (ptrAt c.ptrs y.1, y.2)) hy))
  · rw [hinv.field_ok hmem' (by decide) (by decide)]
    rw [hlive] at hinv
    exact congrArg _ (hinv.next_elem hsplit)

/-- A loop is the walk over the numbers. Induction on the fuel. -/
theorem loopFrom_ok (place : Blocks.Placement) (body : Body) :
    ∀ (fuel : Nat) {c : Client} {a : Numbered} {visited : List Addr}
      (front : List (Nat × Addr)) {rest : List (Nat × Addr)}
      {r : Numbered × List Addr}, Shows c a → a.live = front ++ rest →
      walkFrom body fuel a visited rest = some r →
      Yields Blocks.OutOfMemory
        (loopFrom place body fuel c visited (cursor c rest))
        fun r' => Shows r'.1 r.1 ∧ r'.2 = r.2 := by
  intro fuel
  induction fuel with
  | zero =>
      intro c a visited front rest r _ _ hwalk
      cases hwalk
  | succ fuel ih =>
      intro c a visited front rest r h hlive hwalk
      cases rest with
      | nil =>
          obtain rfl := Option.some.inj hwalk
          unfold loopFrom
          rw [if_pos (show cursor c [] = c.list.tail from rfl)]
          exact ⟨h, rfl⟩
      | cons y rest =>
          obtain ⟨hne, hval, _⟩ := h.fields hlive
          unfold loopFrom
          show Yields _ (if ptrAt c.ptrs y.1 = c.list.tail then _ else _) _
          rw [if_neg hne, show cursor c (y :: rest) = ptrAt c.ptrs y.1 from rfl,
            hval, ok_bind]
          obtain ⟨a₁, hcalls, hwalk⟩ := Option.bind_eq_some_iff.mp hwalk
          obtain ⟨rest', hbehind, hwalk⟩ := Option.bind_eq_some_iff.mp hwalk
          refine (h.calls place _ hcalls).bind fun c₁ h₁ => ?_
          -- the body has left the element where it was
          obtain ⟨front', v, hlive'⟩ := behind_split hbehind
          obtain ⟨_, _, hnext⟩ := h₁.list.fields hlive'
          obtain ⟨l, hl⟩ := h₁.ptrs
          have hy : y.1 < c.ptrs.length := h.known y (by rw [hlive]; simp)
          rw [← hl, ptrAt_append hy] at hnext
          rw [hnext, ok_bind]
          refine ih (front' ++ [(y.1, v)]) h₁.list ?_ hwalk
          rw [hlive', List.append_assoc]
          rfl

/-- A loop from the first element on. -/
theorem Shows.loop_ok (place : Blocks.Placement) (h : Shows c a) {body : Body}
    {fuel : Nat} {r : Numbered × List Addr}
    (hwalk : walkFrom body fuel a [] a.live = some r) :
    Yields Blocks.OutOfMemory (loop place body fuel c)
      fun r' => Shows r'.1 r.1 ∧ r'.2 = r.2 := by
  unfold loop
  rw [h.head]
  exact loopFrom_ok place body fuel [] h rfl hwalk

-- ==================================================================== runs

/-- One call of a program. -/
theorem Shows.exec (place : Blocks.Placement) (h : Shows c a)
    {call : LoopCall} {r : Numbered × List Addr}
    (hr : call.model a = some r) :
    Yields Blocks.OutOfMemory (call.exec place c)
      fun r' => Shows r'.1 r.1 ∧ r'.2 = r.2 := by
  cases call with
  | call c' =>
      obtain ⟨a', hcall, hr⟩ := Option.bind_eq_some_iff.mp hr
      obtain rfl := Option.some.inj hr
      exact (h.call place hcall).bind fun c₁ h₁ => ⟨h₁.list, rfl⟩
  | forEach body fuel => exact h.loop_ok place hr

/-- A run of calls. Induction on them. -/
theorem loopRunFrom_ok (place : Blocks.Placement) :
    ∀ (cs : List LoopCall) {c : Client} {a : Numbered}
      {r : Numbered × List (List Addr)}, Shows c a →
      modelRunFrom a cs = some r →
      Yields Blocks.OutOfMemory (loopRunFrom place c cs)
        fun r' => Shows r'.1 r.1 ∧ r'.2 = r.2 := by
  intro cs
  induction cs with
  | nil =>
      intro c a r h hr
      obtain rfl := Option.some.inj hr
      exact ⟨h, rfl⟩
  | cons call cs ih =>
      intro c a r h hr
      obtain ⟨r₁, hcall, hr⟩ := Option.bind_eq_some_iff.mp hr
      obtain ⟨r₂, hrest, hr⟩ := Option.bind_eq_some_iff.mp hr
      obtain rfl := Option.some.inj hr
      refine (h.exec place hcall).bind fun r' hr' => ?_
      refine (ih hr'.1 hrest).bind fun r'' hr'' => ?_
      exact ⟨hr''.1, by rw [hr'.2, hr''.2]⟩

-- ======================================================= a cursor that goes

/-- A body that does what `calls` says when `i` values have been
visited, and nothing before and after. -/
def onceAt (i : Nat) (calls : List ListCall) : Body :=
  fun visited _ => if visited.length = i then calls else []

/-- Up to there the loop visits one value after the other. Induction on
them. -/
theorem loopFrom_quiet (place : Blocks.Placement) (h : Shows c a) {i : Nat}
    {calls : List ListCall} :
    ∀ (l : List (Nat × Addr)) {fuel : Nat} {visited : List Addr}
      (front : List (Nat × Addr)) {rest : List (Nat × Addr)},
      a.live = front ++ (l ++ rest) →
      visited.length + l.length ≤ i →
      loopFrom place (onceAt i calls) (l.length + fuel) c visited
          (cursor c (l ++ rest))
        = loopFrom place (onceAt i calls) fuel c
          (visited ++ l.map Prod.snd) (cursor c rest) := by
  intro l
  induction l with
  | nil =>
      intro fuel visited front rest _ _
      rw [List.map_nil, List.append_nil, List.length_nil, Nat.zero_add,
        List.nil_append]
  | cons y l ih =>
      intro fuel visited front rest hlive hi
      rw [List.length_cons] at hi
      obtain ⟨hne, hval, hnext⟩ := h.fields hlive
      have hquiet : onceAt i calls visited y.2 = [] :=
        if_neg (by omega)
      have hstep : loopFrom place (onceAt i calls) (l.length + fuel + 1) c
          visited (ptrAt c.ptrs y.1)
          = loopFrom place (onceAt i calls) (l.length + fuel) c
            (visited ++ [y.2]) (cursor c (l ++ rest)) := by
        rw [loopFrom, if_neg hne, hval, ok_bind, hquiet, List.foldlM_nil]
        show (field c.sys _ links >>= _) = _
        rw [hnext, ok_bind]
        rfl
      rw [List.length_cons, Nat.add_right_comm]
      refine hstep.trans ?_
      rw [ih (front ++ [y]) (by rw [hlive, List.append_assoc]; rfl)
        (by rw [List.length_append, List.length_singleton]; omega),
        List.append_assoc]
      rfl

/-- A loop that has come to a free element goes through all that are
free, and beyond. Induction on them. -/
theorem loopFrom_free (place : Blocks.Placement) {i : Nat}
    {calls : List ListCall} (htail : c.list.tail ≠ 0) :
    ∀ (l : List Addr) {cur : Addr} {fuel : Nat} {visited : List Addr},
      Threaded 0 c.sys.mem cur l →
      (∀ p ∈ l, p ≠ c.list.tail ∧ ∀ off : Addr, off.toNat + 8 ≤ 24 →
        off.toNat % 8 = 0 →
        field c.sys p off = .ok (c.sys.mem.load64 (p + off))) →
      i < visited.length → l.length < fuel →
      loopFrom place (onceAt i calls) fuel c visited cur
        = .error .badAccess := by
  intro l
  induction l with
  | nil =>
      intro cur fuel visited hchain _ _ hfuel
      obtain ⟨fuel, rfl⟩ := Nat.exists_eq_succ_of_ne_zero
        (Nat.ne_of_gt hfuel)
      rw [threaded_nil.mp hchain, loopFrom, if_neg htail.symm]
      rfl
  | cons p l ih =>
      intro cur fuel visited hchain hfree hi hfuel
      obtain ⟨fuel, rfl⟩ := Nat.exists_eq_succ_of_ne_zero
        (Nat.ne_of_gt (Nat.lt_of_le_of_lt (Nat.zero_le _) hfuel))
      obtain ⟨rfl, _, hrest⟩ := threaded_cons.mp hchain
      obtain ⟨hne, hfield⟩ := hfree cur List.mem_cons_self
      have hquiet : ∀ v, onceAt i calls visited v = [] := fun v =>
        if_neg (by omega)
      rw [loopFrom, if_neg hne, hfield 16 (by decide) (by decide), ok_bind,
        hquiet, List.foldlM_nil]
      show (field c.sys cur links >>= _) = _
      rw [hfield links (by decide) (by decide), ok_bind]
      exact ih hrest (fun q hq => hfree q (List.mem_cons_of_mem _ hq))
        (by rw [List.length_append, List.length_singleton]; omega)
        (Nat.lt_of_succ_lt_succ hfuel)

/-- A loop that comes to the `i`-th element, and what its body does
there. -/
theorem Shows.loop_at (place : Blocks.Placement) (h : Shows c a)
    {front rest : List (Nat × Addr)} {y : Nat × Addr}
    (hlive : a.live = front ++ y :: rest) {calls : List ListCall}
    {c' : Client} (hcalls : calls.foldlM (ListCall.exec place) c = .ok c')
    (fuel : Nat) :
    loop place (onceAt front.length calls) (front.length + (fuel + 1)) c
      = (do
        let cur ← field c'.sys (ptrAt c.ptrs y.1) links
        loopFrom place (onceAt front.length calls) fuel c'
          (front.map Prod.snd ++ [y.2]) cur) := by
  obtain ⟨hne, hval, _⟩ := h.fields hlive
  have hnow : onceAt front.length calls ([] ++ front.map Prod.snd) y.2
      = calls := if_pos (by simp)
  unfold loop
  rw [h.head, hlive, loopFrom_quiet place h front [] hlive (by simp)]
  show loopFrom _ _ (fuel + 1) c _ (ptrAt c.ptrs y.1) = _
  rw [loopFrom, if_neg hne, hval, ok_bind, hnow, hcalls, ok_bind]
  rfl

/-- A body that removes the element the loop is at: the loop ends at the
null behind the allocator's free elements. -/
theorem Shows.loop_lost (place : Blocks.Placement) (h : Shows c a)
    {front rest : List (Nat × Addr)} {y : Nat × Addr}
    (hlive : a.live = front ++ y :: rest) :
    ∃ n, ∀ fuel, n ≤ fuel →
      loop place (onceAt front.length [.remove y.1]) fuel c
        = .error .badAccess := by
  have hy : y ∈ a.live := by
    rw [hlive]
    simp
  obtain ⟨c', free, chunks, hexec, _, hinv⟩ := h.remove_ok place hy
  have hfree : ∀ p ∈ ptrAt c.ptrs y.1 :: free, p ≠ c'.list.tail
      ∧ ∀ off : Addr, off.toNat + 8 ≤ 24 → off.toNat % 8 = 0 →
        field c'.sys p off = .ok (c'.sys.mem.load64 (p + off)) :=
    fun p hp => ⟨hinv.ne_tail (List.mem_append_right _ hp),
      fun off => hinv.field_ok (List.mem_append_right _ hp)⟩
  have htail : c'.list.tail ≠ 0 := by
    intro hzero
    have htoNat : c'.list.tail.toNat = c'.list.addr.toNat + 24 :=
      toNat_tail hinv.space
    rw [hzero] at htoNat
    have : (0 : Addr).toNat = 0 := rfl
    omega
  obtain ⟨_, _, hchain⟩ := threaded_cons.mp hinv.alloc.freeChain
  have hnext := (hfree _ List.mem_cons_self).2 links (by decide) (by decide)
  have hcalls : [ListCall.remove y.1].foldlM (ListCall.exec place) c
      = .ok c' := by
    rw [List.foldlM_cons, hexec]
    rfl
  refine ⟨front.length + (free.length + 2), fun fuel hfuel => ?_⟩
  obtain ⟨k, rfl⟩ := Nat.exists_eq_add_of_le hfuel
  rw [Nat.add_assoc, Nat.add_right_comm free.length 2 k]
  refine (h.loop_at place hlive hcalls (free.length + k + 1)).trans ?_
  rw [hnext, ok_bind]
  exact loopFrom_free place htail free hchain
    (fun p hp => hfree p (List.mem_cons_of_mem _ hp)) (by simp) (by omega)

/-- A body that puts another value in the place of the element the loop is
at: the push takes the element that the removal has freed, so that the loop
is at the last element, and ends. -/
theorem Shows.loop_reused (place : Blocks.Placement) (h : Shows c a)
    {front rest : List (Nat × Addr)} {y : Nat × Addr}
    (hlive : a.live = front ++ y :: rest) (w : Addr) :
    ∃ c', ∀ fuel, front.length + 2 ≤ fuel →
      loop place (onceAt front.length [.remove y.1, .push w]) fuel c
        = .ok (c', front.map Prod.snd ++ [y.2]) := by
  have hy : y ∈ a.live := by
    rw [hlive]
    simp
  obtain ⟨c₁, free, chunks, hexec, hptrs, hinv⟩ := h.remove_ok place hy
  have h₁ := h.removed hptrs hinv
  obtain ⟨a', halloc, _⟩ := ChunkAlloc.alloc_top place sizes hinv.alloc
  have hpush : ∃ c₂, (ListCall.push w).exec place c₁ = .ok c₂
      ∧ c₂.ptrs = c₁.ptrs ++ [ptrAt c.ptrs y.1] := by
    unfold ListCall.exec dlistPushBack
    simp only [bind_assoc]
    rw [halloc, ok_bind]
    exact ⟨_, rfl, rfl⟩
  obtain ⟨c₂, hexec₂, hptrs₂⟩ := hpush
  have h₂ := (h₁.push place w).of_ok hexec₂
  have hlast : (a.live.eraseP fun z => z.1 = y.1) ++ [(a.pushed, w)]
      = (a.live.eraseP fun z => z.1 = y.1) ++ (a.pushed, w) :: [] := rfl
  obtain ⟨_, _, hnext⟩ := h₂.list.fields hlast
  have hsame : ptrAt c₂.ptrs a.pushed = ptrAt c.ptrs y.1 := by
    rw [hptrs₂, hptrs, ← h.pushed, ptrAt_last]
  have hcalls : [ListCall.remove y.1, .push w].foldlM (ListCall.exec place) c
      = .ok c₂ := by
    rw [List.foldlM_cons, hexec, ok_bind, List.foldlM_cons, hexec₂]
    rfl
  refine ⟨c₂, fun fuel hfuel => ?_⟩
  obtain ⟨k, rfl⟩ := Nat.exists_eq_add_of_le hfuel
  rw [Nat.add_assoc, Nat.add_comm 2 k]
  refine (h.loop_at place hlive hcalls (k + 1)).trans ?_
  rw [← hsame, hnext, ok_bind, loopFrom,
    if_pos (show cursor c₂ [] = c₂.list.tail from rfl)]

/-- A loop over a list, and its body, do what they do to the list of the
numbers; but a body that removes the element the loop is at leads the loop
out of the list. -/
theorem dlist_loops (place : Blocks.Placement) (mem : ByteMem) {addr : Addr}
    (haddr : addr.toNat + sizeofDlist ≤ 2 ^ 64) {cs : List LoopCall}
    {r : Numbered × List (List Addr)} (hr : modelRun cs = some r) :
    Yields Blocks.OutOfMemory (loopRun place mem addr cs) fun r' =>
      r'.2 = r.2
        ∧ ∀ front y rest, r.1.live = front ++ y :: rest →
          (∃ n, ∀ fuel, n ≤ fuel →
            loop place (onceAt front.length [.remove y.1]) fuel r'.1
              = .error .badAccess)
          ∧ ∀ w, ∃ c, ∀ fuel, front.length + 2 ≤ fuel →
            loop place (onceAt front.length [.remove y.1, .push w]) fuel r'.1
              = .ok (c, front.map Prod.snd ++ [y.2]) := by
  unfold loopRun
  cases hs : dlistBoot place mem addr with
  | error err => exact (boot_yields place mem haddr).of_error hs
  | ok s =>
      obtain ⟨free, chunks, hinv⟩ :=
        (boot_yields place mem haddr).of_ok hs
      have hlive : s.live = [] := by
        unfold dlistBoot at hs
        obtain ⟨r₁, _, hs⟩ := bind_eq_ok hs
        rw [← Except.ok.inj hs]
      have h : Shows ⟨s.sys, s.list, []⟩ ⟨[], 0⟩ := by
        refine ⟨⟨free, chunks, ?_⟩, rfl, fun y hy => ?_⟩
        · have hinv' : Inv ⟨s.sys, s.list, s.live⟩ [] free chunks := hinv
          rw [hlive] at hinv'
          exact hinv'
        · cases hy
      refine (loopRunFrom_ok place cs h hr).mono fun r' hr' => ?_
      refine ⟨hr'.2, fun front y rest hsplit => ⟨?_, fun w => ?_⟩⟩
      · exact hr'.1.loop_lost place hsplit
      · exact hr'.1.loop_reused place hsplit w

-- ============================================================== small runs

/-- A list at address 256. The body of its loop, at the first value,
removes the second element and pushes another one, which takes its place
in memory. -/
def replacing : List LoopCall :=
  [.call (.push 7), .call (.push 8),
    .forEach (fun _ v => if v = 7 then [.remove 1, .push 9] else []) 3]

theorem dlist_loops_replacing :
    Yields Blocks.OutOfMemory
      (loopRun ChunkAlloc.pages ⟨fun _ => 0⟩ 256 replacing) fun r' =>
      r'.2 = [[], [], [7, 9]]
        ∧ ∃ n, ∀ fuel, n ≤ fuel →
          loop ChunkAlloc.pages (onceAt 1 [.remove 2]) fuel r'.1
            = .error .badAccess := by
  have haddr : (256 : Addr).toNat + sizeofDlist ≤ 2 ^ 64 := by decide
  have hr : modelRun replacing
      = some (⟨[(0, 7), (2, 9)], 3⟩, [[], [], [7, 9]]) := rfl
  refine (dlist_loops ChunkAlloc.pages ⟨fun _ => 0⟩ haddr hr).mono ?_
  intro r' hr'
  obtain ⟨hshown, hgone⟩ := hr'
  exact ⟨hshown, (hgone [(0, 7)] (2, 9) [] rfl).1⟩

end UdeBench.Npr.LinkedList
