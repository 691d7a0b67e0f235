/-
The singly linked list is a list: pushes put values at its two ends, and a
loop over it visits its values in order, those included that its own body
has pushed behind it. At the end every element is freed once, and every
value, too, if that is asked for.

`Holds s c` says which elements the chain has; `tail_chain` points to the
null at its end, wherever that is (`Holds.tail_null`). A push keeps it (`Holds.push`), so a
loop is the abstract walk (`walk`) step for step (`forEachFrom_ok`).
-/
import UdeBench.Npr.SinglyList

namespace UdeBench.Npr.Slist

open Store (Ptr Heap Fault headPtr chained segment chained_append
  segment_append length_chained load store)

-- ========================================================= the abstract list

/-- A push on a list of values. -/
def Push.model (l : List Value) : Push → List Value
  | head v => v :: l
  | tail v => l ++ [v]

/-- The values pushes put in front, and behind. -/
def heads (ps : List Push) : List Value :=
  (ps.filterMap fun p => match p with
    | .head v => some v
    | .tail _ => none).reverse

def tails (ps : List Push) : List Value :=
  ps.filterMap fun p => match p with
    | .head _ => none
    | .tail v => some v

/-- A loop over the values `rest`, with `front` before them: what is
pushed behind is visited, too. -/
def walk (body : Body) : Nat → List Value → List Value → List Value →
    Option (List Value × List Value)
  | _, front, visited, [] => some (front, visited)
  | 0, _, _, _ :: _ => none
  | fuel + 1, front, visited, v :: rest =>
      let ps := body visited v
      walk body fuel (heads ps ++ front ++ [v]) (visited ++ [v])
        (rest ++ tails ps)

/-- A call on a list of values, and what it returns. -/
def SlistCall.model (l : List Value) :
    SlistCall → Option (List Value × List Value)
  | push p => some (p.model l, [])
  | forEach body fuel => walk body fuel [] [] l

/-- A run of calls. -/
def modelRun : List Value → List SlistCall →
    Option (List Value × List (List Value))
  | l, [] => some (l, [])
  | l, c :: cs =>
      match c.model l with
      | none => none
      | some (l, r) =>
          match modelRun l cs with
          | none => none
          | some (l, rs) => some (l, r :: rs)

-- ================================================================ the invariant

/-- The elements of a chain, with their values. -/
abbrev Cells := List (Ptr × Value)

/-- Where the null at the end of a chain is. -/
def tailLink (c : Cells) : Link :=
  match c.getLast? with
  | none => .head
  | some (p, _) => .chain p

theorem tailLink_concat (c : Cells) (p : Ptr) (v : Value) :
    tailLink (c ++ [(p, v)]) = .chain p := by
  unfold tailLink
  rw [List.getLast?_concat]

/-- An element in front is the last one if it is the only one. -/
theorem tailLink_cons (c : Cells) (p : Ptr) (v : Value) :
    tailLink ((p, v) :: c)
      = if headPtr c = none then .chain p else tailLink c := by
  cases c with
  | nil => rfl
  | cons x c =>
      have hsome : headPtr (x :: c) ≠ none := by simp [headPtr]
      rw [if_neg hsome]
      unfold tailLink
      rw [List.getLast?_cons_cons]

/-- The chain has these elements. -/
structure Holds (s : Sys) (c : Cells) : Prop where
  owns : Store.Owns s.elems (chained Elem.mk c)
  head : s.list.head = headPtr c
  tail : s.list.tailChain = tailLink c

variable {s : Sys} {c : Cells} {answers : Nat → Bool}

theorem Holds.pushHead (h : Holds s c) (v : Value) :
    Yields Store.OutOfMemory (Slist.pushHead answers s v)
      fun s' => ∃ e, Holds s' ((e, v) :: c) := by
  unfold Slist.pushHead
  refine (h.owns.malloc answers ⟨none, none⟩).bind fun r hown => ?_
  obtain ⟨elems, hstore, hown'⟩ := hown.store_head
    ⟨s.list.head, v⟩
  show Yields Store.OutOfMemory (store r.1 (some r.2) ⟨s.list.head, v⟩ >>= _) _
  rw [hstore]
  rw [h.head] at hown'
  refine .ok ⟨r.2, hown', rfl, ?_⟩
  show (if s.list.head = none then Link.chain r.2 else s.list.tailChain) = _
  rw [tailLink_cons, h.head, h.tail]

/-- What `*l->tail_chain = e` does: the null at the end becomes `e`. -/
theorem Holds.writeLink {elems : Heap Elem} {e : Ptr} {x : Elem}
    (h : Holds s c) (hown : Store.Owns elems ((e, x) :: chained Elem.mk c)) :
    ∃ s', Slist.writeLink { s with elems } s.list.tailChain (some e)
        = .ok s' ∧ s'.list.head = (headPtr c).or (some e)
      ∧ Store.Owns s'.elems ((e, x) :: segment Elem.mk (some e) c) := by
  rcases List.eq_nil_or_concat' c with rfl | ⟨c, ⟨p, v⟩, rfl⟩
  · rw [h.tail]
    exact ⟨_, rfl, rfl, hown⟩
  · rw [h.tail, tailLink_concat]
    rw [chained_append] at hown
    have hload : load elems (some p) = .ok ⟨none, v⟩ :=
      hown.load (by simp [chained, headPtr])
    have hlast : Store.Owns elems (((e, x) :: segment Elem.mk (some p) c)
        ++ [(p, ⟨none, v⟩)]) := hown
    obtain ⟨elems', hstore, hown'⟩ := hlast.store ⟨some e, v⟩
    refine ⟨{ s with elems := elems' }, ?_, ?_, ?_⟩
    · show (load elems (some p) >>= _) = _
      rw [hload]
      show (store elems (some p) ⟨some e, v⟩ >>= _) = _
      rw [hstore]
      rfl
    · rw [h.head]
      cases c <;> rfl
    · rw [segment_append]
      exact hown'

theorem Holds.pushTail (h : Holds s c) (v : Value) :
    Yields Store.OutOfMemory (Slist.pushTail answers s v)
      fun s' => ∃ e, Holds s' (c ++ [(e, v)]) := by
  unfold Slist.pushTail
  refine (h.owns.malloc answers ⟨none, none⟩).bind fun r hown => ?_
  obtain ⟨s', hs', hhead, hown'⟩ := h.writeLink hown
  show Yields Store.OutOfMemory
    (Slist.writeLink { s with elems := r.1 } s.list.tailChain (some r.2)
      >>= _) _
  rw [hs']
  obtain ⟨elems, hstore, hown₂⟩ := hown'.store_head ⟨none, v⟩
  show Yields Store.OutOfMemory (store s'.elems (some r.2) ⟨none, v⟩ >>= _) _
  rw [hstore]
  refine .ok ⟨r.2, ?_, ?_, (tailLink_concat c r.2 v).symm⟩
  · rw [chained_append]
    exact hown₂.perm (List.perm_append_singleton _ _).symm
  · show s'.list.head = headPtr (c ++ [(r.2, v)])
    rw [hhead]
    cases c <;> rfl

theorem Holds.push (h : Holds s c) (p : Push) :
    Yields Store.OutOfMemory (p.exec answers s)
      fun s' => ∃ c', Holds s' c' ∧ ∃ hs ts, c' = hs ++ c ++ ts
        ∧ hs.map Prod.snd = heads [p] ∧ ts.map Prod.snd = tails [p] := by
  cases p with
  | head v =>
      refine (h.pushHead v).mono fun s' ⟨e, hs'⟩ => ?_
      exact ⟨_, hs', [(e, v)], [], (List.append_nil _).symm, rfl, rfl⟩
  | tail v =>
      refine (h.pushTail v).mono fun s' ⟨e, hs'⟩ => ?_
      exact ⟨_, hs', [], [(e, v)], rfl, rfl, rfl⟩

/-- Some pushes: the elements that were there stay in their order. -/
theorem Holds.pushes (ps : List Push) (h : Holds s c) :
    Yields Store.OutOfMemory (ps.foldlM (Push.exec answers) s)
      fun s' => ∃ hs ts, Holds s' (hs ++ c ++ ts)
        ∧ hs.map Prod.snd = heads ps ∧ ts.map Prod.snd = tails ps := by
  induction ps generalizing s c with
  | nil =>
      refine .ok ⟨[], [], ?_, rfl, rfl⟩
      rwa [List.append_nil]
  | cons p ps ih =>
      rw [List.foldlM_cons]
      refine (h.push p).bind fun s₁ ⟨c', hs₁, hs, ts, hc', hhs, hts⟩ => ?_
      subst hc'
      refine (ih hs₁).mono fun s₂ ⟨hs', ts', hs₂, hhs', hts'⟩ => ?_
      refine ⟨hs' ++ hs, ts ++ ts', ?_, ?_, ?_⟩
      · rw [show hs' ++ hs ++ c ++ (ts ++ ts')
          = hs' ++ (hs ++ c ++ ts) ++ ts' by simp]
        exact hs₂
      · rw [List.map_append, hhs, hhs']
        cases p <;> simp [heads]
      · rw [List.map_append, hts, hts']
        cases p <;> simp [tails]

-- ==================================================================== loops

/-- A loop is the walk; it may run out of fuel where the walk does. -/
theorem forEachFrom_ok (answers : Nat → Bool) (body : Body) (fuel : Nat)
    (c₁ c₂ : Cells) (visited : List Value) (h : Holds s (c₁ ++ c₂)) :
    Yields (fun e => Store.OutOfMemory e ∨ e = .noReturn
        ∧ walk body fuel (c₁.map Prod.snd) visited (c₂.map Prod.snd) = none)
      (forEachFrom answers body fuel s visited (headPtr c₂))
      fun r => ∃ c', Holds r.1 c'
        ∧ walk body fuel (c₁.map Prod.snd) visited (c₂.map Prod.snd)
          = some (c'.map Prod.snd, r.2) := by
  induction fuel generalizing s c₁ c₂ visited with
  | zero =>
      cases c₂ with
      | nil => exact .ok ⟨c₁ ++ [], h, by rw [List.append_nil]; rfl⟩
      | cons x c₂ => exact .error (.inr ⟨rfl, rfl⟩)
  | succ fuel ih =>
      cases c₂ with
      | nil => exact .ok ⟨c₁ ++ [], h, by rw [List.append_nil]; rfl⟩
      | cons x c₂ =>
          obtain ⟨e, v⟩ := x
          have hload : load s.elems (some e) = .ok ⟨headPtr c₂, v⟩ := by
            have hown := h.owns
            rw [chained_append] at hown
            exact hown.load (List.mem_append_right _ List.mem_cons_self)
          show Yields _ (load s.elems (some e) >>= _) _
          rw [hload]
          refine ((h.pushes (body visited v)).excuse fun _ => .inl).bind ?_
          rintro s₁ ⟨hs, ts, hs₁, hhs, hts⟩
          -- the element is still there, and may have a new successor
          have hsplit : hs ++ (c₁ ++ (e, v) :: c₂) ++ ts
              = (hs ++ c₁) ++ (e, v) :: (c₂ ++ ts) := by simp
          rw [hsplit] at hs₁
          have hnext : load s₁.elems (some e)
              = .ok ⟨headPtr (c₂ ++ ts), v⟩ := by
            have hown := hs₁.owns
            rw [chained_append] at hown
            exact hown.load (List.mem_append_right _ List.mem_cons_self)
          show Yields _ (load s₁.elems (some e) >>= _) _
          rw [hnext]
          have hwalk : walk body (fuel + 1) (c₁.map Prod.snd) visited
              (((e, v) :: c₂).map Prod.snd)
              = walk body fuel ((hs ++ c₁ ++ [(e, v)]).map Prod.snd)
                (visited ++ [v]) ((c₂ ++ ts).map Prod.snd) := by
            rw [List.map_cons, walk, List.map_append, List.map_append,
              List.map_append, hhs, hts]
            rfl
          rw [hwalk]
          refine ih _ _ _ ?_
          rw [List.append_assoc, List.singleton_append]
          exact hs₁

-- ================================================================== the end

variable {α : Type}

/-- The pointers `npr_singly_list_fini` frees beside the elements. -/
def freedValues (freeElem : Bool) (l : List Value) : List Ptr :=
  if freeElem then l.reduceOption else []

/-- One value is freed, if that is asked for. -/
theorem freeIf_ok {freeElem : Bool} {values : Heap α} {v : Value}
    {l : List Value} {owned rest : List (Ptr × α)}
    (hvalues : Store.Owns values (owned ++ rest))
    (hptrs : owned.map Prod.fst = freedValues freeElem (v :: l)) :
    ∃ values' owned', freeIf freeElem values v = .ok values'
      ∧ Store.Owns values' (owned' ++ rest)
      ∧ owned'.map Prod.fst = freedValues freeElem l := by
  cases freeElem with
  | false => exact ⟨values, owned, rfl, hvalues, hptrs⟩
  | true =>
      cases v with
      | none => exact ⟨values, owned, rfl, hvalues, hptrs⟩
      | some p =>
          obtain ⟨⟨q, a⟩, owned', rfl, rfl, howned'⟩ :=
            List.map_eq_cons_iff.mp hptrs
          obtain ⟨values', hfree, hown⟩ := hvalues.free_head
          exact ⟨values', owned', hfree, hown, howned'⟩

/-- Every element is freed, and every value if that is asked for. -/
theorem freeElems_ok {freeElem : Bool} {elems : Heap Elem}
    {values : Heap α} {owned rest : List (Ptr × α)} {fuel : Nat}
    (helems : Store.Owns elems (chained Elem.mk c)) (hfuel : c.length ≤ fuel)
    (hvalues : Store.Owns values (owned ++ rest))
    (hptrs : owned.map Prod.fst = freedValues freeElem (c.map Prod.snd)) :
    ∃ elems' values', freeElems freeElem fuel elems values (headPtr c)
        = .ok (elems', values')
      ∧ Store.Owns elems' [] ∧ Store.Owns values' rest := by
  induction c generalizing elems values owned fuel with
  | nil =>
      have hnil : owned = [] := by
        rw [← List.map_eq_nil_iff (f := Prod.fst), hptrs]
        cases freeElem <;> rfl
      subst hnil
      exact ⟨elems, values, by cases fuel <;> rfl, helems, hvalues⟩
  | cons x c ih =>
      obtain ⟨e, v⟩ := x
      obtain ⟨fuel, rfl⟩ :=
        Nat.exists_eq_succ_of_ne_zero (Nat.ne_zero_of_lt hfuel)
      have hload : load elems (some e) = .ok ⟨headPtr c, v⟩ :=
        helems.load List.mem_cons_self
      obtain ⟨values₁, owned₁, hvalue, hvalues₁, hptrs₁⟩ :=
        freeIf_ok hvalues hptrs
      obtain ⟨elems₁, hfree, helems₁⟩ := helems.free_head
      obtain ⟨elems', values', hrest, hdone⟩ :=
        ih helems₁ (Nat.le_of_succ_le_succ hfuel) hvalues₁ hptrs₁
      refine ⟨elems', values', ?_, hdone⟩
      show (load elems (some e) >>= _) = _
      rw [hload]
      show (freeIf freeElem values v >>= _) = _
      rw [hvalue]
      show (Store.free elems e >>= _) = _
      rw [hfree]
      exact hrest

/-- `npr_singly_list_fini`. -/
theorem Holds.fini {freeElem : Bool} {values : Heap α}
    {owned rest : List (Ptr × α)} (h : Holds s c)
    (hvalues : Store.Owns values (owned ++ rest))
    (hptrs : owned.map Prod.fst = freedValues freeElem (c.map Prod.snd)) :
    ∃ elems' values', singlyListFini s freeElem values
        = .ok (elems', values')
      ∧ Store.Owns elems' [] ∧ Store.Owns values' rest := by
  unfold singlyListFini
  have hlen := h.owns.length_le
  rw [length_chained] at hlen
  rw [h.head]
  exact freeElems_ok h.owns hlen hvalues hptrs

-- ==================================================================== runs

/-- A run may run out of fuel where its model does. -/
def Excused (cs : List SlistCall) (l : List Value) (e : Fault) : Prop :=
  Store.OutOfMemory e ∨ e = .noReturn ∧ modelRun l cs = none

/-- One call. -/
theorem exec_ok (answers : Nat → Bool) (call : SlistCall) (h : Holds s c) :
    Yields (fun e => Store.OutOfMemory e
        ∨ e = .noReturn ∧ call.model (c.map Prod.snd) = none)
      (call.exec answers s)
      fun r => ∃ c', Holds r.1 c'
        ∧ call.model (c.map Prod.snd) = some (c'.map Prod.snd, r.2) := by
  cases call with
  | push p =>
      refine ((h.push p).excuse fun _ => .inl).bind ?_
      rintro s' ⟨_, hs', hs, ts, rfl, hhs, hts⟩
      refine .ok ⟨_, hs', ?_⟩
      rw [List.map_append, List.map_append, hhs, hts]
      cases p with
      | head v => simp [SlistCall.model, Push.model, heads, tails]
      | tail v => simp [SlistCall.model, Push.model, heads, tails]
  | forEach body fuel =>
      have hloop := forEachFrom_ok answers body fuel [] c [] h
      rw [← h.head] at hloop
      exact hloop

/-- A run of calls. -/
theorem runFrom_ok (cs : List SlistCall) (h : Holds s c) :
    Yields (Excused cs (c.map Prod.snd)) (runFrom answers s cs)
      fun r => ∃ c', Holds r.1 c'
        ∧ modelRun (c.map Prod.snd) cs = some (c'.map Prod.snd, r.2) := by
  induction cs generalizing s c with
  | nil => exact .ok ⟨c, h, rfl⟩
  | cons call cs ih =>
      rw [runFrom]
      refine Yields.bind ((exec_ok answers call h).excuse ?_)
        fun r ⟨c₁, hr, hmodel⟩ => ?_
      · rintro e (he | ⟨he, hnone⟩)
        · exact .inl he
        · refine .inr ⟨he, ?_⟩
          rw [modelRun, hnone]
      · have hrun : modelRun (c.map Prod.snd) (call :: cs)
            = (modelRun (c₁.map Prod.snd) cs).map
              fun q => (q.1, r.2 :: q.2) := by
          rw [modelRun, hmodel]
          simp only
          cases modelRun (c₁.map Prod.snd) cs <;> rfl
        refine ((ih hr).excuse ?_).bind fun q ⟨c', hq, hmodel'⟩ => ?_
        · rintro e (he | ⟨he, hnone⟩)
          · exact .inl he
          · refine .inr ⟨he, ?_⟩
            rw [hrun, hnone]
            rfl
        · refine .ok ⟨c', hq, ?_⟩
          rw [hrun, hmodel']
          rfl

end UdeBench.Npr.Slist
